import Mathlib.Data.List.Basic
import Mathlib.Logic.Relation

/-!
# Worklists

A loop that takes items from a queue, skips those it has seen, and visits the others. A
visit changes a state, may queue more items and may fail. The queue may be rearranged
after each visit.
-/

namespace Worklist

variable {α σ ε : Type}

/-- What a visit does: it sees the items seen so far, itself included, and yields items to
    queue and a state. -/
structure Exploration (α σ ε : Type) where
  visit : List α → α → σ → Except ε (List α × σ)
  /-- What becomes of the queue after a visit. -/
  arrange : List α → List α
  mem_arrange : ∀ queue a, a ∈ arrange queue ↔ a ∈ queue

/-- The loop between two rounds. -/
structure Frontier (α σ : Type) where
  queue : List α
  seen : List α
  state : σ

/-- The loop before its first round. -/
def start (queue : List α) (state : σ) : Frontier α σ :=
  ⟨queue, [], state⟩

variable [DecidableEq α] (x : Exploration α σ ε)

/-- One round. There is none when the queue is empty. -/
def next (f : Frontier α σ) : Option (Except ε (Frontier α σ)) :=
  match f.queue with
  | [] => none
  | a :: rest =>
    if a ∈ f.seen then some (.ok { f with queue := rest })
    else
      some <| (x.visit (a :: f.seen) a f.state).map fun visited =>
        ⟨x.arrange (rest ++ visited.1), a :: f.seen, visited.2⟩

/-- The loop, for at most some number of rounds. -/
def run : Nat → Frontier α σ → Option (Except ε (Frontier α σ))
  | 0, _ => none
  | n + 1, f =>
    match next x f with
    | none => some (.ok f)
    | some (.error e) => some (.error e)
    | some (.ok f') => run n f'

/-- What the loop comes to. -/
inductive Finishes : Frontier α σ → Except ε (Frontier α σ) → Prop
  | done {f : Frontier α σ} (empty : next x f = none) : Finishes f (.ok f)
  | stop {f : Frontier α σ} {e : ε} (failed : next x f = some (.error e)) : Finishes f (.error e)
  | round {f f' : Frontier α σ} {r : Except ε (Frontier α σ)}
    (step : next x f = some (.ok f')) (rest : Finishes f' r) : Finishes f r

/-- A later frontier of the loop. -/
def Reached : Frontier α σ → Frontier α σ → Prop :=
  Relation.ReflTransGen fun f f' => next x f = some (.ok f')

variable {x} {f f' g : Frontier α σ} {r : Except ε (Frontier α σ)}

/-! ## Rounds -/

theorem queue_of_next_none (empty : next x f = none) : f.queue = [] := by
  unfold next at empty
  split at empty
  · assumption
  · split at empty <;> cases empty

theorem next_cases (step : next x f = some (.ok f')) :
    ∃ a rest, f.queue = a :: rest ∧
      ((a ∈ f.seen ∧ f' = ⟨rest, f.seen, f.state⟩) ∨
        a ∉ f.seen ∧ ∃ new s, x.visit (a :: f.seen) a f.state = .ok (new, s) ∧
          f' = ⟨x.arrange (rest ++ new), a :: f.seen, s⟩) := by
  unfold next at step
  split at step
  · cases step
  · next a rest queue =>
    refine ⟨a, rest, queue, ?_⟩
    split at step
    · next old =>
      simp only [Option.some.injEq, Except.ok.injEq] at step
      exact Or.inl ⟨old, step.symm⟩
    · next fresh =>
      cases visited : x.visit (a :: f.seen) a f.state with
      | error e => simp [visited, Except.map] at step
      | ok out =>
        simp only [visited, Except.map, Option.some.injEq, Except.ok.injEq] at step
        exact Or.inr ⟨fresh, out.1, out.2, rfl, step.symm⟩

/-! ## Runs -/

variable {P : Frontier α σ → Prop}

theorem Finishes.invariant (keeps : ∀ f f', P f → next x f = some (.ok f') → P f') (holds : P f)
    (finishes : Finishes x f (.ok g)) : P g ∧ g.queue = [] := by
  generalize target : (Except.ok g : Except ε (Frontier α σ)) = r at finishes
  induction finishes with
  | done empty =>
    cases target
    exact ⟨holds, queue_of_next_none empty⟩
  | stop failed => cases target
  | round step rest ih => exact ih (keeps _ _ holds step) target

theorem Reached.invariant (keeps : ∀ f f', P f → next x f = some (.ok f') → P f') (holds : P f)
    (reached : Reached x f g) : P g := by
  induction reached with
  | refl => exact holds
  | tail _ step ih => exact keeps _ _ ih step

theorem Finishes.from_reached (finishes : Finishes x f r) (reached : Reached x f g) :
    Finishes x g r := by
  induction reached with
  | refl => exact finishes
  | tail _ step ih =>
    cases ih with
    | done empty => simp [empty] at step
    | stop failed => simp [failed] at step
    | round step' rest =>
      rw [step] at step'
      cases step'
      exact rest

theorem Finishes.reached (finishes : Finishes x f (.ok g)) : Reached x f g := by
  generalize target : (Except.ok g : Except ε (Frontier α σ)) = r at finishes
  induction finishes with
  | done empty =>
    cases target
    exact .refl
  | stop failed => cases target
  | round step rest ih => exact .head step (ih target)

theorem run_finishes {n : Nat} (ran : run x n f = some r) : Finishes x f r := by
  induction n generalizing f with
  | zero => cases ran
  | succ n ih =>
    rw [run] at ran
    split at ran
    · next empty =>
      cases ran
      exact .done empty
    · next failed =>
      cases ran
      exact .stop failed
    · next step => exact .round step (ih ran)

/-! ## What is visited -/

/-- An item has been seen or is going to be. -/
def Frontier.Has (f : Frontier α σ) (a : α) : Prop :=
  a ∈ f.seen ∨ a ∈ f.queue

theorem has_next (step : next x f = some (.ok f')) {a : α} (has : f.Has a) : f'.Has a := by
  obtain ⟨b, rest, queue, ⟨old, rfl⟩ | ⟨-, new, s, -, rfl⟩⟩ := next_cases step
  · rcases has with seen | waits
    · exact Or.inl seen
    · rw [queue] at waits
      rcases List.mem_cons.mp waits with rfl | later
      · exact Or.inl old
      · exact Or.inr later
  · rcases has with seen | waits
    · exact Or.inl (List.mem_cons_of_mem _ seen)
    · rw [queue] at waits
      rcases List.mem_cons.mp waits with rfl | later
      · exact Or.inl (List.mem_cons_self ..)
      · exact Or.inr ((x.mem_arrange _ _).mpr (List.mem_append_left _ later))

theorem seen_nodup_next (step : next x f = some (.ok f')) (nodup : f.seen.Nodup) :
    f'.seen.Nodup := by
  obtain ⟨b, rest, -, ⟨-, rfl⟩ | ⟨fresh, new, s, -, rfl⟩⟩ := next_cases step
  · exact nodup
  · exact List.nodup_cons.mpr ⟨fresh, nodup⟩

theorem Finishes.has (finishes : Finishes x f (.ok g)) {a : α} (has : f.Has a) : a ∈ g.seen := by
  obtain ⟨has, empty⟩ :=
    finishes.invariant (P := fun f => f.Has a) (fun _ _ has step => has_next step has) has
  rcases has with seen | waits
  · exact seen
  · rw [empty] at waits
    cases waits

end Worklist
