import Kryndel.Evaluation.Operands

/-!
# When the order of evaluation does not matter

Every free evaluation of an expression is its evaluation in order, event by event, exactly
when the expression is settled: operands without an order never include two operators, nor
a leaf that the operator sees differently depending on the time at which it is read, and no
connective is decided before its one operator is reached.
-/

namespace Operands

open List

variable {ι σ V X ν κ : Type}

/-! ## Agreement and its condition -/

/-- Every free evaluation is the evaluation in order. -/
def Agrees (m : Machine σ V X ν κ) (t : Term ι V ν κ) (s : σ) : Prop :=
  ∀ trace r, Runs m t s trace r → (trace, r) = eval m t s

/-- The states that an evaluation goes through. -/
def visited (s : σ) (trace : List (Event σ V X ι)) : List σ :=
  s :: trace.map Event.state

/-- Values that leaves can have when each of them is read in one of some states. -/
def Readings (m : Machine σ V X ν κ) (states : List σ) :
    List (Term ι V ν κ) → List V → Prop :=
  List.Forall₂ fun t v => ∃ s ∈ states, v = m.leafValue s t

mutual

/-- Operands without an order never include two operators, nor a variable whose value,
    as far as the operator sees it, depends on the time at which it is read. -/
def Settled (m : Machine σ V X ν κ) : Term ι V ν κ → σ → Prop
  | .value _, _ => True
  | .var _, _ => True
  | .node site form operands, s =>
    if form.isOrdered then SettledInOrder m operands s
    else SettledAmong m site form [] operands s

/-- Operands that are evaluated one after the other. -/
def SettledInOrder (m : Machine σ V X ν κ) : List (Term ι V ν κ) → σ → Prop
  | [], _ => True
  | t :: ts, s => Settled m t s ∧ ∀ v s', (eval m t s).2 = (.ok v, s') → SettledInOrder m ts s'

/-- Operands that are evaluated in no particular order, after the leaves `before`. -/
def SettledAmong (m : Machine σ V X ν κ) (site : ι) (form : Form κ)
    (before : List (Term ι V ν κ)) : List (Term ι V ν κ) → σ → Prop
  | [], _ => True
  | t :: after, s =>
    if t.isLeaf then SettledAmong m site form (before ++ [t]) after s
    else
      -- the one operator among the operands
      Settled m t s ∧ after.all Term.isLeaf = true ∧
        (∀ u ∈ before, m.decides form (m.leafValue s u) = false) ∧
        ∀ trace v s', eval m t s = (trace, .ok v, s') →
          ∀ us ws, Readings m (visited s trace) before us →
            Readings m (visited s trace) after ws →
            (m.fire site form (us ++ v :: ws) s' : Event σ V X ι) =
              m.fire site form
                (before.map (m.leafValue s) ++ v :: after.map (m.leafValue s')) s'

end

/-! ## Operands that are evaluated in order -/

section Ordered

variable {m : Machine σ V X ν κ} {site : ι} {form : Form κ} {vs : List V} {t : Term ι V ν κ}
  {ts : List (Term ι V ν κ)} {s : σ} {trace : List (Event σ V X ι)}

theorem step_ordered {next : Except X (Term ι V ν κ) × σ} (ordered : form.isOrdered = true)
    (open' : ∀ v, t ≠ .value v)
    (step : Step m (.node site form (vs.map .value ++ t :: ts)) s trace next) :
    ∃ next' s', Step m t s trace (next', s') ∧
      next = (next'.map fun t' => .node site form (vs.map .value ++ t' :: ts), s') := by
  have len : (vs.map (.value : V → Term ι V ν κ)).length = vs.length := by simp
  rcases step_node step with ⟨us, same, -, -⟩ | ⟨i, u, next', s', here, turn, inner, rfl⟩
  · have mem : t ∈ us.map (.value : V → Term ι V ν κ) := by simp [← same]
    obtain ⟨v, -, rfl⟩ := mem_map.mp mem
    exact absurd rfl (open' v)
  · rcases Nat.lt_trichotomy i vs.length with before | rfl | after
    · obtain ⟨v, value⟩ := @value_before ι V ν κ vs (t :: ts) i before
      rw [here, Option.some.injEq] at value
      subst value
      exact absurd inner not_step_value
    · have at' := getElem?_middle (vs.map .value) ts t
      rw [len, here, Option.some.injEq] at at'
      subst at'
      refine ⟨next', s', inner, ?_⟩
      have set (t' : Term ι V ν κ) := set_middle (vs.map .value) ts u t'
      simp only [len] at set
      simp
    · obtain ⟨v, value⟩ := turn ordered vs.length after
      have at' := getElem?_middle (vs.map .value) ts t
      rw [len, value, Option.some.injEq] at at'
      exact absurd at'.symm (open' v)

/-- A free evaluation of an operator with ordered operands evaluates the first operand that
    is no value, and then goes on. -/
theorem runs_ordered {r : Except X V × σ} (ordered : form.isOrdered = true)
    (runs : Runs m (.node site form (vs.map .value ++ t :: ts)) s trace r) :
    (∃ x s', Runs m t s trace (.error x, s') ∧ r = (.error x, s')) ∨
      ∃ trace₁ trace₂ v s', Runs m t s trace₁ (.ok v, s') ∧
        Runs m (.node site form ((vs ++ [v]).map .value ++ ts)) s' trace₂ r ∧
        trace = trace₁ ++ trace₂ := by
  generalize target : Term.node site form (vs.map .value ++ t :: ts) = n at runs
  induction runs generalizing t with
  | done v s => cases target
  | @halt n s s' trace x step =>
    subst target
    by_cases done : ∃ v, t = .value v
    · obtain ⟨v, rfl⟩ := done
      exact Or.inr ⟨[], trace, v, s, .done v s, by simpa using Runs.halt step, rfl⟩
    · obtain ⟨next', s₁, inner, same⟩ := step_ordered ordered (fun v h => done ⟨v, h⟩) step
      cases next' with
      | error y =>
        obtain ⟨rfl, rfl⟩ := same
        exact Or.inl ⟨x, s', .halt inner, rfl⟩
      | ok u => simp [Except.map] at same
  | @next n n' s s' trace trace' r step rest ih =>
    subst target
    by_cases done : ∃ v, t = .value v
    · obtain ⟨v, rfl⟩ := done
      exact Or.inr ⟨[], trace ++ trace', v, s, .done v s, by simpa using Runs.next step rest, rfl⟩
    · obtain ⟨next', s₁, inner, same⟩ := step_ordered ordered (fun v h => done ⟨v, h⟩) step
      cases next' with
      | error y => simp [Except.map] at same
      | ok u =>
        obtain ⟨rfl, rfl⟩ := same
        rcases ih rfl with ⟨x, s₂, stopped, rfl⟩ | ⟨trace₁, trace₂, v, s₂, went, others, rfl⟩
        · exact Or.inl ⟨x, s₂, .next inner stopped, rfl⟩
        · exact Or.inr ⟨trace ++ trace₁, trace₂, v, s₂, .next inner went, others, by simp⟩

theorem runs_values {us : List V} {r : Except X V × σ}
    (runs : Runs m (.node site form (us.map .value)) s trace r) :
    (trace, r) = (m.fire site form us s).run := by
  have fired {trace : List (Event σ V X ι)} {next : Except X (Term ι V ν κ) × σ}
      (step : Step m (.node site form (us.map .value)) s trace next) :
      trace = [m.fire site form us s] ∧
        next = ((m.fire site form us s : Event σ V X ι).result.map .value,
          (m.fire site form us s : Event σ V X ι).state) := by
    rcases step_node step with ⟨ws, same, shown⟩ | ⟨i, u, next', s', here, -, step, -⟩
    · have equal : us = ws := map_injective_iff.mpr (fun a b h => by cases h; rfl) same
      subst equal
      exact shown
    · obtain ⟨v, -, rfl⟩ := mem_map.mp (mem_of_getElem? here)
      exact absurd step not_step_value
  generalize target : Term.node site form (us.map .value) = n at runs
  cases runs with
  | done v s => cases target
  | halt step =>
    subst target
    obtain ⟨rfl, shown⟩ := fired step
    cases result : (m.fire site form us s : Event σ V X ι).result with
    | error y =>
      simp only [result, Except.map, Prod.mk.injEq, Except.error.injEq] at shown
      simp [Event.run, result, shown]
    | ok v => simp [result, Except.map] at shown
  | next step rest =>
    subst target
    obtain ⟨rfl, shown⟩ := fired step
    cases result : (m.fire site form us s : Event σ V X ι).result with
    | error y => simp [result, Except.map] at shown
    | ok v =>
      simp only [result, Except.map, Prod.mk.injEq, Except.ok.injEq] at shown
      obtain ⟨rfl, rfl⟩ := shown
      cases rest with
      | done v s => simp [Event.run, result]
      | halt step | next step rest => exact absurd step not_step_value

theorem runs_fire (us : List V) (s : σ) :
    Runs m (.node site form (us.map .value)) s [m.fire site form us s]
      ((m.fire site form us s : Event σ V X ι).result,
        (m.fire site form us s : Event σ V X ι).state) := by
  have step := Step.fire (m := m) (ν := ν) site form us s
  cases result : (m.fire site form us s : Event σ V X ι).result with
  | error x =>
    rw [result] at step
    exact .halt step
  | ok v =>
    rw [result] at step
    simpa using Runs.next step (.done v _)

end Ordered

/-- Every free evaluation of an operator agrees with the evaluation in order, once its first
    operands have their values. -/
def AgreesAfter (m : Machine σ V X ν κ) (site : ι) (form : Form κ) (vs : List V)
    (ts : List (Term ι V ν κ)) (s : σ) : Prop :=
  ∀ trace r, Runs m (.node site form (vs.map .value ++ ts)) s trace r →
    (trace, r) =
      (evalOperands m form ts s).andThen fun ws s' => (m.fire site form (vs ++ ws) s').run

section Ordered

variable {m : Machine σ V X ν κ} {site : ι} {form : Form κ} {vs : List V} {t : Term ι V ν κ}
  {ts : List (Term ι V ν κ)} {s s' : σ} {trace : List (Event σ V X ι)}

theorem agrees_leaf (leaf : t.isLeaf = true) : Agrees m t s (X := X) := by
  intro trace r runs
  cases runs with
  | done v s => rfl
  | halt step =>
    cases t with
    | value v => exact absurd step not_step_value
    | var y => cases step
    | node site form operands => simp [Term.isLeaf] at leaf
  | next step rest =>
    cases t with
    | value v => exact absurd step not_step_value
    | var y =>
      cases step
      cases rest with
      | done v s => rfl
      | halt step | next step rest => exact absurd step not_step_value
    | node site form operands => simp [Term.isLeaf] at leaf

theorem Agrees.run (agrees : Agrees m t s) {run : Run σ V X ι V} (ordered : eval m t s = run) :
    Runs m t s run.1 run.2 := by
  obtain ⟨trace, r, runs⟩ := exists_runs m t s (X := X)
  rw [← ordered, ← agrees trace r runs]
  exact runs

theorem evalOperands_cons {v : V} {α : Type} (goes : m.decides form v = false)
    (first : eval m t s = (trace, .ok v, s')) (next : List V → σ → Run σ V X ι α) :
    (evalOperands m form (t :: ts) s).andThen next =
      (trace ++ ((evalOperands m form ts s').andThen fun ws s'' => next (v :: ws) s'').1,
        ((evalOperands m form ts s').andThen fun ws s'' => next (v :: ws) s'').2) := by
  simp only [evalOperands, first, andThen_ok, goes, Bool.false_eq_true, if_false]
  rcases evalOperands m form ts s' with ⟨trace', x | ws, s''⟩ <;> simp

theorem evalOperands_cons_error {x : X} {α : Type}
    (first : eval m t s = (trace, .error x, s')) (next : List V → σ → Run σ V X ι α) :
    (evalOperands m form (t :: ts) s).andThen next = (trace, .error x, s') := by
  simp [evalOperands, first]

theorem sites_values (us : List V) : sitesAll (us.map (.value : V → Term ι V ν κ)) = [] := by
  induction us with
  | nil => rfl
  | cons u us ih => simpa [sitesAll, Term.sites] using ih

theorem sitesAll_append (us ws : List (Term ι V ν κ)) :
    sitesAll (us ++ ws) = sitesAll us ++ sitesAll ws := by
  induction us with
  | nil => rfl
  | cons u us ih => simp [sitesAll, ih]

theorem fire_site (site : ι) (form : Form κ) (us : List V) (s : σ) :
    (m.fire site form us s : Event σ V X ι).site = site := by
  cases form <;> rfl

theorem decides_of_ordered (ordered : form.isOrdered = true) (v : V) :
    m.decides form v = false := by
  cases form with
  | ordered op => rfl
  | unordered op => rfl
  | connective b => simp [Form.isOrdered] at ordered

/-- The first of ordered operands agrees by itself, and so does the operator after it. -/
theorem agreesAfter_cons (ordered : form.isOrdered = true)
    (apart : ∀ a ∈ t.sites, a ≠ site ∧ a ∉ sitesAll ts) :
    AgreesAfter m site form vs (t :: ts) s (X := X) ↔
      Agrees m t s (X := X) ∧ ∀ v s', (eval m t s : Run σ V X ι V).2 = (.ok v, s') →
        AgreesAfter m site form (vs ++ [v]) ts s' (X := X) := by
  classical
  have here : (vs.map (.value : V → Term ι V ν κ) ++ t :: ts)[vs.length]? = some t := by simp
  have turn : Turn form (vs.map .value ++ t :: ts) vs.length := fun _ j hj => value_before hj
  have put (v : V) : (vs.map (.value : V → Term ι V ν κ) ++ t :: ts).set vs.length (.value v) =
      (vs ++ [v]).map .value ++ ts := by simp
  have later (us : List V) (s' : σ) {trace : List (Event σ V X ι)} {r : Except X V × σ}
      (runs : Runs m (.node site form (us.map .value ++ ts)) s' trace r) :
      ∀ e ∈ trace, e.site ∉ t.sites := by
    intro e mem inside
    have at' := runs_sites runs e mem
    simp only [Term.sites, sitesAll_append, sites_values, nil_append, mem_cons] at at'
    exact at'.elim (apart _ inside).1 (apart _ inside).2
  have laterInOrder (us : List V) (s' : σ) :
      ∀ e ∈ ((evalOperands m form ts s' : Run σ V X ι (List V)).andThen fun ws s'' =>
        (m.fire site form (us ++ ws) s'').run).1, e.site ∉ t.sites := by
    intro e mem inside
    have events := (evalOperands_events m form ts s' (X := X)).1
    generalize evalOperands m form ts s' = run at mem events
    rcases run with ⟨trace', x | ws, s''⟩
    · exact (apart _ inside).2 (events e (by simpa using mem))
    · simp only [andThen_ok, Event.run, mem_append, mem_singleton] at mem
      rcases mem with before | rfl
      · exact (apart _ inside).2 (events e before)
      · exact (apart _ inside).1 (fire_site site form _ s'')
  constructor
  · intro agrees
    have alone : Agrees m t s (X := X) := by
      cases leaf : t.isLeaf with
      | true => exact agrees_leaf leaf
      | false =>
        intro trace₁ r₁ runs
        have ends := eval_ends leaf s (m := m) (X := X)
        have sites := (eval_events m t s (X := X)).1
        obtain ⟨trace₂, r, full, apart₂⟩ : ∃ trace₂ r,
            Runs m (.node site form (vs.map .value ++ t :: ts)) s (trace₁ ++ trace₂) r ∧
              ∀ e ∈ trace₂, e.site ∉ t.sites := by
          rcases r₁ with ⟨x | v, s'⟩
          · refine ⟨[], (.error x, s'), ?_, by simp⟩
            simpa using runs_operand_error runs here turn
          · obtain ⟨trace₂, r, rest⟩ :=
              exists_runs m (.node site form ((vs ++ [v]).map .value ++ ts)) s' (X := X)
            exact ⟨trace₂, r, runs_operand_ok runs here turn (put v ▸ rest), later _ _ rest⟩
        have same := agrees _ _ full
        refine Ends.same (runs_ends runs leaf) ends ?_
        generalize run : eval m t s = own at ends sites
        rcases own with ⟨trace, x | v, s'⟩
        · rw [evalOperands_cons_error run, Prod.mk.injEq] at same
          exact (split_by_site (runs_sites runs) sites apart₂ (d := []) (by simp)
            (by simpa using same.1)).1
        · rw [evalOperands_cons (decides_of_ordered ordered v) run, Prod.mk.injEq] at same
          refine (split_by_site (runs_sites runs) sites apart₂ ?_ same.1).1
          simpa using laterInOrder (vs ++ [v]) s'
    refine ⟨alone, ?_⟩
    intro v s' comes trace₂ r rest
    have own : eval m t s = ((eval m t s : Run σ V X ι V).1, .ok v, s') := by
      rw [← comes]
    have full := runs_operand_ok (alone.run own) here turn (put v ▸ rest)
    have same := agrees _ _ full
    rw [evalOperands_cons (decides_of_ordered ordered v) own, Prod.mk.injEq] at same
    have others : (trace₂, r) = _ := Prod.ext (append_cancel_left same.1) same.2
    simpa using others
  · rintro ⟨alone, after⟩ trace r runs
    rcases runs_ordered ordered runs with ⟨x, s', stopped, rfl⟩ |
      ⟨trace₁, trace₂, v, s', went, rest, rfl⟩
    · exact (evalOperands_cons_error (alone _ _ stopped).symm _).symm
    · have own := (alone _ _ went).symm
      have others := after v s' (by rw [own]) _ _ rest
      rw [evalOperands_cons (decides_of_ordered ordered v) own]
      simp only [append_assoc, singleton_append] at others
      rw [← others]

end Ordered

/-! ## Operands that are evaluated in no particular order -/

section Among

variable {m : Machine σ V X ν κ} {site : ι} {form : Form κ} {s s' : σ}
  {trace : List (Event σ V X ι)}

/-- An operand that is a leaf, or what is left of it once it was read in one of some
    states. -/
def Progressed (m : Machine σ V X ν κ) (states : List σ) (t t' : Term ι V ν κ) : Prop :=
  t.isLeaf = true ∧ (t' = t ∨ ∃ s ∈ states, t' = .value (m.leafValue s t))

variable {states : List σ} {leaves : List (Term ι V ν κ)}

theorem forall₂_progressed_refl (all : leaves.all Term.isLeaf = true) :
    List.Forall₂ (Progressed m states) leaves leaves := by
  rw [forall₂_same]
  intro t mem
  exact ⟨all_eq_true.mp all t mem, Or.inl rfl⟩

variable {i : Nat}

theorem forall₂_set {α β : Type} {R : α → β → Prop} {l : List α} {l' : List β} {y : β}
    (related : List.Forall₂ R l l') (new : ∀ a, l[i]? = some a → R a y) :
    List.Forall₂ R l (l'.set i y) := by
  induction related generalizing i with
  | nil => exact .nil
  | cons first rest ih =>
    cases i with
    | zero => exact .cons (new _ rfl) rest
    | succ i => exact .cons first (ih fun a here => new a (by simpa using here))

theorem forall₂_getElem? {α β : Type} {R : α → β → Prop} {l : List α} {l' : List β} {b : β}
    (related : List.Forall₂ R l l') (here : l'[i]? = some b) :
    ∃ a, l[i]? = some a ∧ R a b := by
  induction related generalizing i with
  | nil => simp at here
  | cons first rest ih =>
    cases i with
    | zero =>
      simp only [getElem?_cons_zero, Option.some.injEq] at here
      exact ⟨_, rfl, here ▸ first⟩
    | succ i =>
      obtain ⟨a, at', holds⟩ := ih (by simpa using here)
      exact ⟨a, by simpa using at', holds⟩

theorem step_progressed {t t' : Term ι V ν κ} {next : Except X (Term ι V ν κ)}
    (progressed : Progressed m states t t') (now : s ∈ states)
    (step : Step m t' s trace (next, s')) :
    trace = [] ∧ s' = s ∧ ∃ t'', next = .ok t'' ∧ Progressed m states t t'' := by
  obtain ⟨leaf, rfl | ⟨u, -, rfl⟩⟩ := progressed
  · cases t' with
    | value v => exact absurd step not_step_value
    | var y =>
      cases step
      exact ⟨rfl, rfl, _, rfl, leaf, Or.inr ⟨s, now, rfl⟩⟩
    | node site form operands => simp [Term.isLeaf] at leaf
  · exact absurd step not_step_value

variable {us : List V}

theorem readings_of_progressed (now : s ∈ states)
    (progressed : List.Forall₂ (Progressed m states) leaves (us.map .value)) :
    Readings m states leaves us := by
  induction us generalizing leaves with
  | nil =>
    cases progressed
    exact .nil
  | cons u us ih =>
    cases progressed with
    | cons first rest =>
      refine .cons ?_ (ih rest)
      obtain ⟨-, same | ⟨s', mem, same⟩⟩ := first
      · subst same
        exact ⟨s, now, rfl⟩
      · simp only [Term.value.injEq] at same
        exact ⟨s', mem, same⟩

theorem readings_one (readings : Readings m [s] leaves us) : us = leaves.map (m.leafValue s) := by
  induction readings with
  | nil => rfl
  | cons first rest ih =>
    obtain ⟨s', mem, rfl⟩ := first
    rw [mem_singleton.mp mem, ih]
    rfl

theorem agrees_leaves (all : leaves.all Term.isLeaf = true) :
    Agrees m (.node site form leaves) s (X := X) := by
  have own {operands : List (Term ι V ν κ)} {trace : List (Event σ V X ι)}
      {r : Except X V × σ} (progressed : List.Forall₂ (Progressed m [s]) leaves operands)
      (runs : Runs m (.node site form operands) s trace r) :
      (trace, r) = (m.fire site form (leaves.map (m.leafValue s)) s).run := by
    generalize target : Term.node site form operands = n at runs
    generalize start : s = s₁ at runs
    induction runs generalizing operands with
    | done v s => cases target
    | @halt n s₁ s' trace x step =>
      subst target start
      rcases step_node step with ⟨us, rfl, -⟩ | ⟨i, t, next', s₂, here, -, inner, same⟩
      · rw [← readings_one (readings_of_progressed (mem_singleton_self s) progressed)]
        exact runs_values (.halt step)
      · obtain ⟨a, -, leaf⟩ := forall₂_getElem? progressed here
        obtain ⟨-, -, t'', rfl, -⟩ := step_progressed leaf (mem_singleton_self s) inner
        simp [Except.map] at same
    | @next n n' s₁ s' trace trace' r step rest ih =>
      subst target start
      rcases step_node step with ⟨us, rfl, -⟩ | ⟨i, t, next', s₂, here, -, inner, same⟩
      · rw [← readings_one (readings_of_progressed (mem_singleton_self s) progressed)]
        exact runs_values (.next step rest)
      · obtain ⟨a, at', leaf⟩ := forall₂_getElem? progressed here
        obtain ⟨rfl, rfl, t'', rfl, more⟩ := step_progressed leaf (mem_singleton_self s) inner
        simp only [Except.map, Prod.mk.injEq, Except.ok.injEq] at same
        obtain ⟨rfl, rfl⟩ := same
        refine ih (forall₂_set progressed fun b here' => ?_) rfl rfl
        rw [at', Option.some.injEq] at here'
        exact here' ▸ more
  intro trace r runs
  obtain ⟨us, run, same⟩ := @evalOperands_leaves ι σ V X ν κ m site form leaves all s
  rw [own (forall₂_progressed_refl all) runs, eval, run, andThen_ok]
  have whole := same [] s
  simp only [nil_append] at whole
  rw [whole]
  rfl

theorem visited_step {t t' : Term ι V ν κ} (step : Step m t s trace (.ok t', s'))
    (rest : List (Event σ V X ι)) : visited s' rest ⊆ visited s (trace ++ rest) := by
  rcases step_events step with ⟨rfl, rfl, -⟩ | ⟨e, rfl, rfl, -⟩
  · exact List.Subset.refl _
  · exact subset_cons_self _ _

theorem middle_cases {us ws : List (Term ι V ν κ)} {t u : Term ι V ν κ}
    (here : (us ++ t :: ws)[i]? = some u) :
    (us[i]? = some u ∧ ∀ u', (us ++ t :: ws).set i u' = us.set i u' ++ t :: ws) ∨
      (u = t ∧ ∀ u', (us ++ t :: ws).set i u' = us ++ u' :: ws) ∨
      ∃ j : Nat, ws[j]? = some u ∧ ∀ u', (us ++ t :: ws).set i u' = us ++ t :: ws.set j u' := by
  induction us generalizing i with
  | nil =>
    cases i with
    | zero =>
      simp only [nil_append, getElem?_cons_zero, Option.some.injEq] at here
      exact Or.inr (Or.inl ⟨here.symm, fun u' => rfl⟩)
    | succ i => exact Or.inr (Or.inr ⟨i, by simpa using here, fun u' => rfl⟩)
  | cons a us ih =>
    cases i with
    | zero => exact Or.inl ⟨by simpa using here, fun u' => rfl⟩
    | succ i =>
      rcases ih (by simpa using here) with ⟨at', put⟩ | ⟨rfl, put⟩ | ⟨j, at', put⟩
      · exact Or.inl ⟨by simpa using at', fun u' => by simp [put]⟩
      · exact Or.inr (Or.inl ⟨rfl, fun u' => by simp [put]⟩)
      · exact Or.inr (Or.inr ⟨j, at', fun u' => by simp [put]⟩)

/-- What an operator comes to that has one operand with events, whose evaluation is known.
    The leaves were read in some of the states that it goes through. -/
def AmongOutcome (m : Machine σ V X ν κ) (site : ι) (form : Form κ) (states : List σ)
    (before after : List (Term ι V ν κ)) (known run : Run σ V X ι V) : Prop :=
  (∀ x s', known.2 = (.error x, s') → run = known) ∧
    ∀ v s', known.2 = (.ok v, s') → ∃ us ws, Readings m states before us ∧
      Readings m states after ws ∧
      run = (known.1 ++ [m.fire site form (us ++ v :: ws) s'],
        (m.fire site form (us ++ v :: ws) s' : Event σ V X ι).result,
        (m.fire site form (us ++ v :: ws) s' : Event σ V X ι).state)

variable {before after : List (Term ι V ν κ)} {r : Except X V × σ}

variable {known : Run σ V X ι V}

theorem AmongOutcome.after_step {trace trace' : List (Event σ V X ι)}
    (rest : AmongOutcome m site form states before after known (trace', r)) :
    AmongOutcome m site form states before after (trace ++ known.1, known.2)
      (trace ++ trace', r) := by
  refine ⟨fun x s' stopped => ?_, fun v s' comes => ?_⟩
  · have same := rest.1 x s' stopped
    rw [← same]
  · obtain ⟨us, ws, front, back, same⟩ := rest.2 v s' comes
    refine ⟨us, ws, front, back, ?_⟩
    simp only [Prod.mk.injEq] at same
    simp [same.1, same.2]

theorem runs_among {before before' after after' : List (Term ι V ν κ)} {t : Term ι V ν κ}
    (front : List.Forall₂ (Progressed m states) before before')
    (back : List.Forall₂ (Progressed m states) after after')
    (only : ∀ trace r, Runs m t s trace r → (trace, r) = known) (seen : visited s known.1 ⊆ states)
    (runs : Runs m (.node site form (before' ++ t :: after')) s trace r) :
    AmongOutcome m site form states before after known (trace, r) := by
  generalize target : Term.node site form (before' ++ t :: after') = n at runs
  -- the operator is applied
  have applied {us : List V} {s : σ} {before' after' : List (Term ι V ν κ)} {t : Term ι V ν κ}
      {known : Run σ V X ι V} {trace : List (Event σ V X ι)} {r : Except X V × σ}
      (front : List.Forall₂ (Progressed m states) before before')
      (back : List.Forall₂ (Progressed m states) after after')
      (only : ∀ trace r, Runs m t s trace r → (trace, r) = known)
      (seen : visited s known.1 ⊆ states) (values : before' ++ t :: after' = us.map .value)
      (runs : Runs m (.node site form (before' ++ t :: after')) s trace r) :
      AmongOutcome m site form states before after known (trace, r) := by
    obtain ⟨us₁, us₂, rfl, rfl, tail⟩ := map_eq_append_iff.mp values.symm
    obtain ⟨v, us₃, rfl, rfl, rfl⟩ := map_eq_cons_iff.mp tail
    have now : s ∈ states := seen (mem_cons_self ..)
    obtain rfl := only _ _ (.done v s)
    rw [values] at runs
    refine ⟨fun x s' stopped => by simp at stopped, fun v' s' comes => ?_⟩
    simp only [Prod.mk.injEq, Except.ok.injEq] at comes
    obtain ⟨rfl, rfl⟩ := comes
    exact ⟨us₁, us₃, readings_of_progressed now front, readings_of_progressed now back,
      runs_values runs⟩
  induction runs generalizing before' after' t known with
  | done v s => cases target
  | @halt n s s' trace x step =>
    subst target
    have now : s ∈ states := seen (mem_cons_self ..)
    rcases step_node step with ⟨us, values, -⟩ | ⟨i, u, next', s₂, here, -, inner, same⟩
    · exact applied front back only seen values (.halt step)
    · rcases middle_cases here with ⟨at', -⟩ | ⟨rfl, -⟩ | ⟨j, at', -⟩
      · obtain ⟨a, -, leaf⟩ := forall₂_getElem? front at'
        obtain ⟨-, -, t'', rfl, -⟩ := step_progressed leaf now inner
        simp [Except.map] at same
      · cases next' with
        | ok t'' => simp [Except.map] at same
        | error y =>
          obtain ⟨rfl, rfl⟩ := same
          obtain rfl := only _ _ (.halt inner)
          exact ⟨fun _ _ _ => rfl, fun v s' comes => by simp at comes⟩
      · obtain ⟨a, -, leaf⟩ := forall₂_getElem? back at'
        obtain ⟨-, -, t'', rfl, -⟩ := step_progressed leaf now inner
        simp [Except.map] at same
  | @next n n' s s' trace trace' r step rest ih =>
    subst target
    have now : s ∈ states := seen (mem_cons_self ..)
    rcases step_node step with ⟨us, values, -⟩ | ⟨i, u, next', s₂, here, -, inner, same⟩
    · exact applied front back only seen values (.next step rest)
    · rcases middle_cases here with ⟨at', put⟩ | ⟨rfl, put⟩ | ⟨j, at', put⟩
      · obtain ⟨a, at'', leaf⟩ := forall₂_getElem? front at'
        obtain ⟨rfl, rfl, t'', rfl, more⟩ := step_progressed leaf now inner
        simp only [Except.map, put, Prod.mk.injEq, Except.ok.injEq] at same
        obtain ⟨rfl, rfl⟩ := same
        refine ih (forall₂_set front fun b here' => ?_) back only seen rfl
        rw [at'', Option.some.injEq] at here'
        exact here' ▸ more
      · cases next' with
        | error y => simp [Except.map] at same
        | ok t'' =>
          simp only [Except.map, put, Prod.mk.injEq, Except.ok.injEq] at same
          obtain ⟨rfl, rfl⟩ := same
          obtain ⟨trace₂, r₂, others⟩ := exists_runs m t'' s' (X := X)
          obtain rfl := only _ _ (.next inner others)
          have later : AmongOutcome m site form states before after (trace₂, r₂) (trace', r) := by
            refine ih front back ?_ (List.Subset.trans (visited_step inner _) seen) rfl
            intro trace₃ r₃ others'
            have both := only _ _ (.next inner others')
            simp only [Prod.mk.injEq] at both
            exact Prod.ext (append_cancel_left both.1) both.2
          exact later.after_step
      · obtain ⟨a, at'', leaf⟩ := forall₂_getElem? back at'
        obtain ⟨rfl, rfl, t'', rfl, more⟩ := step_progressed leaf now inner
        simp only [Except.map, put, Prod.mk.injEq, Except.ok.injEq] at same
        obtain ⟨rfl, rfl⟩ := same
        refine ih front (forall₂_set back fun b here' => ?_) only seen rfl
        rw [at'', Option.some.injEq] at here'
        exact here' ▸ more

theorem runs_read {operands operands' : List (Term ι V ν κ)} (unordered : form.isOrdered = false)
    (read : List.Forall₂ (Progressed m [s]) operands operands') (before after : List (Term ι V ν κ))
    (runs : Runs m (.node site form (before ++ operands' ++ after)) s trace r) :
    Runs m (.node site form (before ++ operands ++ after)) s trace r := by
  induction read generalizing before with
  | nil => exact runs
  | @cons t t' ts ts' first rest ih =>
    have others := ih (before ++ [t']) (by simpa using runs)
    obtain ⟨leaf, rfl | ⟨s', mem, rfl⟩⟩ := first
    · simpa using others
    · rw [mem_singleton.mp mem] at others
      cases t with
      | value v => simpa [Machine.leafValue] using others
      | var y =>
        have step : Step m (.node site form (before ++ .var y :: ts ++ after)) s []
            (.ok (.node site form (before ++ .value (m.read s y) :: ts ++ after)), s) := by
          have here : (before ++ .var y :: ts ++ after)[before.length]? = some (.var y) := by simp
          simpa [Except.map] using
            Step.operand here (turn_of_unordered unordered) (.var (m := m) y s)
        simpa [Machine.leafValue] using Runs.next step (by simpa [Machine.leafValue] using others)
      | node site form operands => simp [Term.isLeaf] at leaf

theorem readings_now (some' : states ≠ []) (all : leaves.all Term.isLeaf = true)
    (readings : Readings m (s :: states) leaves us) :
    ∃ leaves', List.Forall₂ (Progressed m [s]) leaves leaves' ∧
      leaves'.all Term.isLeaf = true ∧ Readings m states leaves' us := by
  induction readings with
  | nil => exact ⟨[], .nil, rfl, .nil⟩
  | @cons t u ts us first rest ih =>
    simp only [all_cons, Bool.and_eq_true] at all
    obtain ⟨ts', progressed, all', readings⟩ := ih all.2
    obtain ⟨s', mem, rfl⟩ := first
    rcases mem_cons.mp mem with rfl | later
    · obtain ⟨s₁, mem₁⟩ := exists_mem_of_ne_nil _ some'
      refine ⟨.value (m.leafValue s' t) :: ts', .cons ⟨all.1, ?_⟩ progressed, ?_,
        .cons ⟨s₁, mem₁, rfl⟩ readings⟩
      · exact Or.inr ⟨s', mem_singleton_self s', rfl⟩
      · simpa [Term.isLeaf] using all'
    · exact ⟨t :: ts', .cons ⟨all.1, Or.inl rfl⟩ progressed, by simp [all.1, all'],
        .cons ⟨s', later, rfl⟩ readings⟩

theorem progressed_all (all : leaves.all Term.isLeaf = true) :
    List.Forall₂ (Progressed m [s]) leaves (leaves.map (.value ∘ m.leafValue s)) := by
  rw [forall₂_map_right_iff, forall₂_same]
  intro t mem
  exact ⟨all_eq_true.mp all t mem, Or.inr ⟨s, mem_singleton_self s, rfl⟩⟩

theorem readings_first (s : σ) (leaves : List (Term ι V ν κ)) :
    Readings m (visited s trace) leaves (leaves.map (m.leafValue s)) := by
  rw [Readings, forall₂_map_right_iff, forall₂_same]
  intro t mem
  exact ⟨s, mem_cons_self .., rfl⟩

/-- Whatever values the leaves can have in the states that the one operand with events goes
    through, some free evaluation reads just these. -/
theorem runs_readings {t : Term ι V ν κ} {v : V} {us ws : List V}
    (unordered : form.isOrdered = false) (runs : Runs m t s trace (.ok v, s'))
    (allBefore : before.all Term.isLeaf = true) (allAfter : after.all Term.isLeaf = true)
    (front : Readings m (visited s trace) before us)
    (back : Readings m (visited s trace) after ws) :
    Runs m (.node site form (before ++ t :: after)) s
      (trace ++ [m.fire site form (us ++ v :: ws) s'])
      ((m.fire site form (us ++ v :: ws) s' : Event σ V X ι).result,
        (m.fire site form (us ++ v :: ws) s' : Event σ V X ι).state) := by
  generalize target : ((.ok v, s') : Except X V × σ) = r at runs
  induction runs generalizing before after with
  | halt step => cases target
  | done u s =>
    obtain ⟨rfl, rfl⟩ := target
    obtain rfl := readings_one front
    obtain rfl := readings_one back
    have fired := @runs_fire ι σ V X ν κ m site form
      (before.map (m.leafValue s') ++ v :: after.map (m.leafValue s')) s'
    rw [map_append, map_cons] at fired
    have readAfter := runs_read unordered (progressed_all allAfter)
      (before.map (.value ∘ m.leafValue s') ++ [.value v]) [] (by simpa using fired)
    exact runs_read unordered (progressed_all allBefore) [] (.value v :: after)
      (by simpa using readAfter)
  | @next t t' s s₁ trace₁ trace₂ r step rest ih =>
    have wider {leaves : List (Term ι V ν κ)} {us : List V}
        (readings : Readings m (visited s (trace₁ ++ trace₂)) leaves us) :
        Readings m (s :: visited s₁ trace₂) leaves us := by
      refine readings.imp fun t v ⟨s₂, mem, same⟩ => ⟨s₂, ?_, same⟩
      rcases step_events step with ⟨rfl, rfl, -⟩ | ⟨e, rfl, rfl, -⟩
      · exact mem_cons_of_mem _ mem
      · exact mem
    obtain ⟨before', front', allBefore', front⟩ :=
      readings_now (cons_ne_nil _ _) allBefore (wider front)
    obtain ⟨after', back', allAfter', back⟩ :=
      readings_now (cons_ne_nil _ _) allAfter (wider back)
    -- read what is to be read now, then let the operand take its step
    have later := ih allBefore' allAfter' front back target
    have here : (before' ++ t :: after')[before'.length]? = some t := by simp
    have inner : Step m (.node site form (before' ++ t :: after')) s trace₁
        (.ok (.node site form (before' ++ t' :: after')), s₁) := by
      simpa [Except.map] using
        Step.operand here (turn_of_unordered unordered) step
    have onward := Runs.next inner later
    rw [append_assoc]
    have readAfter := runs_read unordered back' (before' ++ [t]) [] (by simpa using onward)
    exact runs_read unordered front' [] (t :: after) (by simpa using readAfter)

theorem eval_among {t : Term ι V ν κ} {before after : List (Term ι V ν κ)}
    (allBefore : before.all Term.isLeaf = true) (allAfter : after.all Term.isLeaf = true)
    (open' : ∀ u ∈ before, m.decides form (m.leafValue s u) = false) :
    (∀ trace x s', eval m t s = (trace, .error x, s') →
      (eval m (.node site form (before ++ t :: after)) s : Run σ V X ι V) =
        (trace, .error x, s')) ∧
    ∀ trace v s', eval m t s = (trace, .ok v, s') →
      (eval m (.node site form (before ++ t :: after)) s : Run σ V X ι V) =
        (trace ++ [m.fire site form
          (before.map (m.leafValue s) ++ v :: after.map (m.leafValue s')) s'],
          (m.fire site form (before.map (m.leafValue s) ++ v :: after.map (m.leafValue s')) s' :
            Event σ V X ι).result,
          (m.fire site form (before.map (m.leafValue s) ++ v :: after.map (m.leafValue s')) s' :
            Event σ V X ι).state) := by
  refine ⟨fun trace x s' stopped => ?_, fun trace v s' comes => ?_⟩
  · rw [eval, evalOperands_append allBefore open', evalOperands, stopped]
    rfl
  · rw [eval, evalOperands_append allBefore open', evalOperands, comes, andThen_ok]
    cases decided : m.decides form v with
    | true =>
      have same := @fire_decided ι σ V X ν κ m site form v decided (before.map (m.leafValue s))
        (after.map (m.leafValue s')) s'
      simp [Event.run, same]
    | false =>
      obtain ⟨us, run, same⟩ := @evalOperands_leaves ι σ V X ν κ m site form after allAfter s'
      have whole := same (before.map (m.leafValue s) ++ [v]) s'
      simp only [append_assoc, singleton_append] at whole
      simp [run, Event.run, whole]

theorem evalOperands_decided (leaves : before.all Term.isLeaf = true)
    (decided : ∃ u ∈ before, m.decides form (m.leafValue s u) = true) (rest : List (Term ι V ν κ)) :
    ∃ us, (evalOperands m form (before ++ rest) s : Run σ V X ι (List V)) = ([], .ok us, s) := by
  induction before with
  | nil => simp at decided
  | cons t ts ih =>
    simp only [all_cons, Bool.and_eq_true] at leaves
    cases now : m.decides form (m.leafValue s t) with
    | true =>
      exact ⟨[m.leafValue s t], by simp [evalOperands, eval_leaf leaves.1, now]⟩
    | false =>
      obtain ⟨us, run⟩ := ih leaves.2 (by simpa [now] using decided)
      exact ⟨m.leafValue s t :: us, by simp [evalOperands, eval_leaf leaves.1, now, run]⟩

variable {operands : List (Term ι V ν κ)}

theorem exists_runs_first {t : Term ι V ν κ} (unordered : form.isOrdered = false)
    (here : operands[i]? = some t) (runs : Runs m t s trace r) :
    ∃ trace' r', Runs m (.node site form operands) s (trace ++ trace') r' := by
  rcases r with ⟨x | v, s'⟩
  · refine ⟨[], (.error x, s'), ?_⟩
    simpa using runs_operand_error runs here (turn_of_unordered unordered)
  · obtain ⟨trace', r', rest⟩ :=
      exists_runs m (.node site form (operands.set i (.value v))) s' (X := X)
    exact ⟨trace', r', runs_operand_ok runs here (turn_of_unordered unordered) rest⟩

theorem exists_runs_head {t : Term ι V ν κ} (unordered : form.isOrdered = false)
    (here : operands[i]? = some t) (compound : t.isLeaf = false) (s : σ) :
    ∃ e trace r, Runs m (.node site form operands) s (e :: trace) r (X := X) ∧
      e.site ∈ t.sites := by
  obtain ⟨trace, r, runs⟩ := exists_runs m t s (X := X)
  obtain ⟨init, e, split, -⟩ := runs_ends runs compound
  obtain ⟨trace', r', whole⟩ : ∃ trace' r',
      Runs m (.node site form operands) s (trace ++ trace') r' :=
    exists_runs_first unordered here runs
  cases trace with
  | nil => simp at split
  | cons first others => exact ⟨first, _, r', whole, runs_sites runs first (mem_cons_self ..)⟩

theorem not_agrees_of_two {i j : Nat} {t u : Term ι V ν κ} (unordered : form.isOrdered = false)
    (first : operands[i]? = some t) (second : operands[j]? = some u) (compound : t.isLeaf = false)
    (compound' : u.isLeaf = false) (apart : ∀ a ∈ t.sites, a ∉ u.sites) :
    ¬ Agrees m (.node site form operands) s (X := X) := by
  intro agrees
  obtain ⟨e, trace, r, runs, inFirst⟩ := exists_runs_head unordered first compound s
  obtain ⟨e', trace', r', runs', inSecond⟩ := exists_runs_head unordered second compound' s
  have same := (agrees _ _ runs).trans (agrees _ _ runs').symm
  simp only [Prod.mk.injEq, List.cons.injEq] at same
  exact apart _ inFirst (same.1.1 ▸ inSecond)

/-- One operand that is no leaf: it agrees by itself, no leaf before it decides the operator,
    and no leaf changes for the operator while it is evaluated. -/
theorem agrees_one_iff {t : Term ι V ν κ} (unordered : form.isOrdered = false)
    (compound : t.isLeaf = false) (allBefore : before.all Term.isLeaf = true)
    (allAfter : after.all Term.isLeaf = true) (apart : site ∉ t.sites) :
    Agrees m (.node site form (before ++ t :: after)) s (X := X) ↔
      Agrees m t s (X := X) ∧ (∀ u ∈ before, m.decides form (m.leafValue s u) = false) ∧
        ∀ trace v s', eval m t s = (trace, .ok v, s') →
          ∀ us ws, Readings m (visited s trace) before us →
            Readings m (visited s trace) after ws →
            (m.fire site form (us ++ v :: ws) s' : Event σ V X ι) =
              m.fire site form
                (before.map (m.leafValue s) ++ v :: after.map (m.leafValue s')) s' := by
  classical
  have here : (before ++ t :: after)[before.length]? = some t := by simp
  constructor
  · intro agrees
    have open' : ∀ u ∈ before, m.decides form (m.leafValue s u) = false := by
      by_contra decided
      simp only [not_forall, Bool.not_eq_false] at decided
      obtain ⟨u, mem, decided⟩ := decided
      obtain ⟨us, run⟩ := evalOperands_decided allBefore ⟨u, mem, decided⟩ (t :: after) (X := X)
      obtain ⟨e, trace, r, runs, inside⟩ := exists_runs_head unordered here compound s
      have same := agrees _ _ runs
      rw [eval, run] at same
      simp only [andThen_ok, Event.run, nil_append, Prod.mk.injEq, List.cons.injEq] at same
      rw [same.1.1, fire_site] at inside
      exact apart inside
    obtain ⟨stops, goes⟩ :=
      @eval_among ι σ V X ν κ m site form s t before after allBefore allAfter open'
    have alone : Agrees m t s (X := X) := by
      intro trace₁ r₁ runs
      have sites := (eval_events m t s (X := X)).1
      have ends := eval_ends compound s (m := m) (X := X)
      -- the operator's own event, if any, comes after those of the operand
      obtain ⟨trace₂, r, full, own⟩ : ∃ trace₂ r,
          Runs m (.node site form (before ++ t :: after)) s (trace₁ ++ trace₂) r ∧
            ∀ e ∈ trace₂, e.site ∉ t.sites := by
        rcases r₁ with ⟨x | v, s'⟩
        · refine ⟨[], (.error x, s'), ?_, by simp⟩
          simpa using runs_operand_error runs here (turn_of_unordered unordered)
        · refine ⟨_, _, runs_readings unordered runs allBefore allAfter
            (readings_first s before) (readings_first s after), ?_⟩
          intro e mem
          rw [mem_singleton.mp mem, fire_site]
          exact apart
      have same := agrees _ _ full
      refine Ends.same (runs_ends runs compound) ends ?_
      generalize run : eval m t s = known at ends sites
      rcases known with ⟨trace, x | v, s'⟩
      · rw [stops _ _ _ run, Prod.mk.injEq] at same
        exact (split_by_site (runs_sites runs) sites own (d := []) (by simp)
          (by simpa using same.1)).1
      · rw [goes _ _ _ run, Prod.mk.injEq] at same
        refine (split_by_site (runs_sites runs) sites own ?_ same.1).1
        intro e mem
        rw [mem_singleton.mp mem, fire_site]
        exact apart
    refine ⟨alone, open', ?_⟩
    intro trace v s' comes us ws front back
    have same := agrees _ _
      (runs_readings unordered (alone.run comes) allBefore allAfter front back)
    rw [goes _ _ _ comes, Prod.mk.injEq] at same
    simpa using same.1
  · rintro ⟨alone, open', fixed⟩ trace r runs
    obtain ⟨stops, goes⟩ :=
      @eval_among ι σ V X ν κ m site form s t before after allBefore allAfter open'
    have outcome := runs_among (forall₂_progressed_refl allBefore)
      (forall₂_progressed_refl allAfter) alone (List.Subset.refl _) runs
    generalize run : eval m t s = known at outcome
    rcases known with ⟨trace', x | v, s'⟩
    · rw [stops _ _ _ run]
      exact outcome.1 _ _ rfl
    · obtain ⟨us, ws, front, back, same⟩ := outcome.2 _ _ rfl
      rw [goes _ _ _ run, same, fixed _ _ _ run us ws front back]

end Among

/-! ## The main result -/

section Main

variable (m : Machine σ V X ν κ)

theorem agreesAfter_nil (site : ι) (form : Form κ) (vs : List V) (s : σ) :
    AgreesAfter m site form vs ([] : List (Term ι V ν κ)) s (X := X) := by
  intro trace r runs
  rw [append_nil] at runs
  rw [runs_values runs]
  simp [evalOperands]

mutual

theorem agrees_iff_settled (t : Term ι V ν κ) (distinct : t.sites.Nodup) (s : σ) :
    Agrees m t s (X := X) ↔ Settled m t s := by
  cases t with
  | value | var => exact iff_of_true (agrees_leaf rfl) trivial
  | node site form operands =>
    simp only [Term.sites, nodup_cons] at distinct
    rw [Settled]
    cases ordered : form.isOrdered with
    | true =>
      have iff := agreesAfter_iff_settled site form ordered [] operands distinct.1 distinct.2 s
      simp only [AgreesAfter, map_nil, nil_append] at iff
      simp only [if_true, ← iff]
      rfl
    | false =>
      simpa using agrees_iff_settledAmong site form ordered [] operands rfl distinct.1 distinct.2 s

theorem agreesAfter_iff_settled (site : ι) (form : Form κ) (ordered : form.isOrdered = true)
    (vs : List V) (ts : List (Term ι V ν κ)) (apart : site ∉ sitesAll ts)
    (distinct : (sitesAll ts).Nodup) (s : σ) :
    AgreesAfter m site form vs ts s (X := X) ↔ SettledInOrder m ts s := by
  cases ts with
  | nil => exact iff_of_true (agreesAfter_nil m site form vs s) trivial
  | cons t ts =>
    simp only [sitesAll, mem_append, not_or] at apart
    simp only [sitesAll, nodup_append] at distinct
    rw [agreesAfter_cons ordered, SettledInOrder, agrees_iff_settled t distinct.1 s]
    · refine and_congr_right fun _ => forall₃_congr fun v s' _ => ?_
      exact agreesAfter_iff_settled site form ordered _ ts apart.2 distinct.2.1 s'
    · intro a mem
      refine ⟨fun same => apart.1 (same ▸ mem), fun later => ?_⟩
      exact distinct.2.2 a mem a later rfl

theorem agrees_iff_settledAmong (site : ι) (form : Form κ) (unordered : form.isOrdered = false)
    (before after : List (Term ι V ν κ)) (leaves : before.all Term.isLeaf = true)
    (apart : site ∉ sitesAll after) (distinct : (sitesAll after).Nodup) (s : σ) :
    Agrees m (.node site form (before ++ after)) s (X := X) ↔
      SettledAmong m site form before after s := by
  cases after with
  | nil =>
    rw [SettledAmong, iff_true, append_nil]
    exact agrees_leaves leaves
  | cons t after =>
    simp only [sitesAll, mem_append, not_or] at apart
    simp only [sitesAll, nodup_append] at distinct
    rw [SettledAmong]
    cases leaf : t.isLeaf with
    | true =>
      have iff := agrees_iff_settledAmong site form unordered (before ++ [t]) after
        (by simp [leaves, leaf]) apart.2 distinct.2.1 s
      simpa using iff
    | false =>
      simp only [Bool.false_eq_true, if_false]
      by_cases others : after.all Term.isLeaf = true
      · rw [agrees_one_iff unordered leaf leaves others apart.1,
          agrees_iff_settled t distinct.1 s]
        simp [others]
      · -- another operand that is no leaf may come first
        simp only [others, Bool.false_eq_true, false_and, and_false, iff_false]
        simp only [all_eq_true, not_forall, Bool.not_eq_true] at others
        obtain ⟨u, mem, compound⟩ := others
        obtain ⟨j, second⟩ := mem_iff_getElem?.mp mem
        refine not_agrees_of_two unordered (i := before.length)
          (j := before.length + 1 + j) (t := t) (u := u) (by simp) ?_ leaf compound ?_
        · rw [getElem?_append_right (by omega)]
          simpa [show before.length + 1 + j - before.length = j + 1 by omega] using second
        · intro a inFirst inSecond
          exact distinct.2.2 a inFirst a (sitesAll_mem.mpr ⟨u, mem, inSecond⟩) rfl

end

end Main

end Operands
