import Mathlib.Data.List.Forall2

/-!
# Operators whose operands are evaluated in an unspecified order

Expressions are built from values, variables and operators. An operator is applied when
its operands have values, and its application is an event: it has operands, a result and
a state that it leaves. Reading a variable is silent.

There are two ways to evaluate an expression. The evaluation in order goes through the
operands from left to right, and a connective stops at the first operand that decides it.
The free evaluation goes through the operands of some operators in no particular order:
any operand may take the next step, and all of them are evaluated, those of a connective
too. An operand that stops ends the evaluation either way.
-/

namespace Operands

open List

/-! ## Expressions -/

/-- How an operator treats its operands. -/
inductive Form (κ : Type) where
  /-- The operands are evaluated one after the other. -/
  | ordered (op : κ)
  /-- The operands are evaluated in no particular order. -/
  | unordered (op : κ)
  /-- A connective that an operand with the truth value `b` decides. The free evaluation
      evaluates all of its operands, in no particular order. -/
  | connective (b : Bool)
  deriving DecidableEq, Repr

/-- Must the operands be evaluated one after the other? -/
def Form.isOrdered {κ : Type} : Form κ → Bool
  | .ordered _ => true
  | _ => false

/-- Expressions with operators at sites `ι`, over values `V`, variables `ν` and
    operations `κ`. -/
inductive Term (ι V ν κ : Type) where
  | value (v : V)
  | var (x : ν)
  | node (site : ι) (form : Form κ) (operands : List (Term ι V ν κ))

variable {ι σ V X ν κ : Type}

/-- An expression that is evaluated without an event. -/
def Term.isLeaf : Term ι V ν κ → Bool
  | .node _ _ _ => false
  | _ => true

mutual

/-- The sites of all operators. -/
def Term.sites : Term ι V ν κ → List ι
  | .value _ => []
  | .var _ => []
  | .node site _ operands => site :: sitesAll operands

/-- The sites of all operators of some expressions. -/
def sitesAll : List (Term ι V ν κ) → List ι
  | [] => []
  | t :: ts => t.sites ++ sitesAll ts

end

/-- What variables and operations mean. An operation yields a value or stops, and leaves a
    state. -/
structure Machine (σ V X ν κ : Type) where
  read : σ → ν → V
  apply : κ → List V → σ → Except X V × σ
  truth : V → Bool
  bool : Bool → V

/-- The application of the operator at a site. A connective shows its result only. -/
structure Event (σ V X ι : Type) where
  site : ι
  operands : List V
  result : Except X V
  state : σ

/-- The events of an evaluation, what it comes to, and the state it leaves. -/
abbrev Run (σ V X ι α : Type) := List (Event σ V X ι) × Except X α × σ

/-- One evaluation after another. -/
def Run.andThen {α β : Type} (r : Run σ V X ι α) (next : α → σ → Run σ V X ι β) :
    Run σ V X ι β :=
  match r with
  | (trace, .error x, s) => (trace, .error x, s)
  | (trace, .ok a, s) => (trace ++ (next a s).1, (next a s).2)

/-- The evaluation that consists of one event. -/
def Event.run (e : Event σ V X ι) : Run σ V X ι V :=
  ([e], e.result, e.state)

namespace Machine

variable (m : Machine σ V X ν κ)

/-- Does an operand decide the operator without the others? -/
def decides : Form κ → V → Bool
  | .connective b, v => m.truth v == b
  | _, _ => false

/-- The operator is applied to its operands. -/
def fire (site : ι) : Form κ → List V → σ → Event σ V X ι
  | .ordered op, vs, s => ⟨site, vs, (m.apply op vs s).1, (m.apply op vs s).2⟩
  | .unordered op, vs, s => ⟨site, vs, (m.apply op vs s).1, (m.apply op vs s).2⟩
  | .connective b, vs, s =>
    ⟨site, [], .ok (m.bool (if vs.any (m.truth · == b) then b else !b)), s⟩

/-- What a leaf evaluates to. Operators are not leaves: their value here is never used. -/
def leafValue (s : σ) : Term ι V ν κ → V
  | .value v => v
  | .var x => m.read s x
  | .node _ _ _ => m.bool false

end Machine

/-! ## Evaluation in order -/

mutual

/-- The evaluation in order. -/
def eval (m : Machine σ V X ν κ) : Term ι V ν κ → σ → Run σ V X ι V
  | .value v, s => ([], .ok v, s)
  | .var x, s => ([], .ok (m.read s x), s)
  | .node site form operands, s =>
    (evalOperands m form operands s).andThen fun vs s' => (m.fire site form vs s').run

/-- The operands from left to right, up to the first that decides the operator. -/
def evalOperands (m : Machine σ V X ν κ) (form : Form κ) :
    List (Term ι V ν κ) → σ → Run σ V X ι (List V)
  | [], s => ([], .ok [], s)
  | t :: ts, s =>
    (eval m t s).andThen fun v s' =>
      if m.decides form v then ([], .ok [v], s')
      else (evalOperands m form ts s').andThen fun vs s'' => ([], .ok (v :: vs), s'')

end

/-! ## Free evaluation -/

/-- One step of the free evaluation: its events, and what is left to evaluate. -/
inductive Step (m : Machine σ V X ν κ) :
    Term ι V ν κ → σ → List (Event σ V X ι) → Except X (Term ι V ν κ) × σ → Prop
  | var (x : ν) (s : σ) : Step m (.var x) s [] (.ok (.value (m.read s x)), s)
  | fire (site : ι) (form : Form κ) (vs : List V) (s : σ) :
    Step m (.node site form (vs.map .value)) s [m.fire site form vs s]
      ((m.fire site form vs s).result.map .value, (m.fire site form vs s).state)
  | operand {site : ι} {form : Form κ} {operands : List (Term ι V ν κ)} {i : Nat}
    {t : Term ι V ν κ} {s s' : σ} {trace : List (Event σ V X ι)}
    {next : Except X (Term ι V ν κ)} (here : operands[i]? = some t)
    (turn : form.isOrdered = true → ∀ j < i, ∃ v, operands[j]? = some (.value v))
    (step : Step m t s trace (next, s')) :
    Step m (.node site form operands) s trace
      (next.map fun t' => .node site form (operands.set i t'), s')

/-- A complete free evaluation. -/
inductive Runs (m : Machine σ V X ν κ) :
    Term ι V ν κ → σ → List (Event σ V X ι) → Except X V × σ → Prop
  | done (v : V) (s : σ) : Runs m (.value v) s [] (.ok v, s)
  | halt {t : Term ι V ν κ} {s s' : σ} {trace : List (Event σ V X ι)} {x : X}
    (step : Step m t s trace (.error x, s')) : Runs m t s trace (.error x, s')
  | next {t t' : Term ι V ν κ} {s s' : σ} {trace trace' : List (Event σ V X ι)}
    {r : Except X V × σ} (step : Step m t s trace (.ok t', s')) (rest : Runs m t' s' trace' r) :
    Runs m t s (trace ++ trace') r

/-! ## Sequencing -/

section Basics

variable {m : Machine σ V X ν κ} {α β : Type}

@[simp] theorem andThen_ok (trace : List (Event σ V X ι)) (a : α) (s : σ)
    (next : α → σ → Run σ V X ι β) :
    Run.andThen (trace, .ok a, s) next = (trace ++ (next a s).1, (next a s).2) := rfl

@[simp] theorem andThen_error (trace : List (Event σ V X ι)) (x : X) (s : σ)
    (next : α → σ → Run σ V X ι β) :
    Run.andThen (trace, .error x, s) next = (trace, .error x, s) := rfl

theorem fire_decided {site : ι} {form : Form κ} {v : V} (decided : m.decides form v = true)
    (us ws : List V) (s : σ) :
    (m.fire site form (us ++ [v]) s : Event σ V X ι) = m.fire site form (us ++ v :: ws) s := by
  cases form with
  | ordered | unordered => simp [Machine.decides] at decided
  | connective b =>
    have hit : (m.truth v == b) = true := decided
    simp [Machine.fire, hit]

theorem eval_leaf {t : Term ι V ν κ} (leaf : t.isLeaf = true) (s : σ) :
    (eval m t s : Run σ V X ι V) = ([], .ok (m.leafValue s t), s) := by
  cases t with
  | value v => rfl
  | var x => rfl
  | node site form operands => simp [Term.isLeaf] at leaf

theorem evalOperands_append {form : Form κ} {before : List (Term ι V ν κ)}
    (leaves : before.all Term.isLeaf = true) {s : σ}
    (open' : ∀ t ∈ before, m.decides form (m.leafValue s t) = false)
    (rest : List (Term ι V ν κ)) :
    (evalOperands m form (before ++ rest) s : Run σ V X ι (List V)) =
      (evalOperands m form rest s).andThen fun vs s' =>
        ([], .ok (before.map (m.leafValue s) ++ vs), s') := by
  induction before with
  | nil =>
    simp only [nil_append, map_nil]
    rcases evalOperands m form rest s with ⟨trace, x | vs, s'⟩ <;> simp
  | cons t ts ih =>
    simp only [all_cons, Bool.and_eq_true] at leaves
    simp only [forall_mem_cons] at open'
    simp only [cons_append, evalOperands, eval_leaf leaves.1, andThen_ok, open'.1,
      Bool.false_eq_true, if_false, ih leaves.2 open'.2]
    rcases evalOperands m form rest s with ⟨trace, x | vs, s'⟩ <;> simp

/-- Leaves are evaluated without a trace; what the operator makes of them is what it makes
    of all of their values. -/
theorem evalOperands_leaves (site : ι) {form : Form κ} {leaves : List (Term ι V ν κ)}
    (all : leaves.all Term.isLeaf = true) (s : σ) :
    ∃ us, (evalOperands m form leaves s : Run σ V X ι (List V)) = ([], .ok us, s) ∧
      ∀ (vs : List V) (s' : σ), (m.fire site form (vs ++ us) s' : Event σ V X ι) =
        m.fire site form (vs ++ leaves.map (m.leafValue s)) s' := by
  induction leaves with
  | nil => exact ⟨[], rfl, fun vs s' => rfl⟩
  | cons t ts ih =>
    simp only [all_cons, Bool.and_eq_true] at all
    obtain ⟨us, run, same⟩ := ih all.2
    cases decided : m.decides form (m.leafValue s t) with
    | true =>
      refine ⟨[m.leafValue s t], by simp [evalOperands, eval_leaf all.1, decided], ?_⟩
      intro vs s'
      exact fire_decided decided vs _ s'
    | false =>
      refine ⟨m.leafValue s t :: us, by simp [evalOperands, eval_leaf all.1, decided, run], ?_⟩
      intro vs s'
      simpa using same (vs ++ [m.leafValue s t]) s'

end Basics

/-! ## Single steps -/

section Steps

variable {m : Machine σ V X ν κ} {t t' : Term ι V ν κ} {s s' : σ}
  {trace : List (Event σ V X ι)} {x : X}

variable {next : Except X (Term ι V ν κ) × σ}

theorem not_step_value {v : V} :
    ¬ Step m (.value v : Term ι V ν κ) s trace next := by
  intro step
  cases step

theorem step_node {site : ι} {form : Form κ} {operands : List (Term ι V ν κ)}
    (step : Step m (.node site form operands) s trace next) :
    (∃ vs : List V, operands = vs.map .value ∧ trace = [m.fire site form vs s] ∧
      next = ((m.fire site form vs s : Event σ V X ι).result.map .value,
        (m.fire site form vs s : Event σ V X ι).state)) ∨
    ∃ i t next' s', operands[i]? = some t ∧
      (form.isOrdered = true → ∀ j < i, ∃ v, operands[j]? = some (.value v)) ∧
      Step m t s trace (next', s') ∧
      next = (next'.map fun t' => .node site form (operands.set i t'), s') := by
  cases step with
  | fire site form vs s => exact Or.inl ⟨vs, rfl, rfl, rfl⟩
  | operand here turn step => exact Or.inr ⟨_, _, _, _, here, turn, step, rfl⟩

theorem step_events {next : Except X (Term ι V ν κ)} (step : Step m t s trace (next, s')) :
    (trace = [] ∧ s' = s ∧ ∃ t', next = .ok t') ∨
      ∃ e, trace = [e] ∧ e.state = s' ∧
        ((∃ x, next = .error x ∧ e.result = .error x) ∨ ∃ t', next = .ok t') := by
  generalize target : (next, s') = goal at step
  induction step generalizing next s' with
  | var y s =>
    simp only [Prod.mk.injEq] at target
    exact Or.inl ⟨rfl, target.2, _, target.1⟩
  | fire site form vs s =>
    simp only [Prod.mk.injEq] at target
    refine Or.inr ⟨_, rfl, target.2.symm, ?_⟩
    cases result : (m.fire site form vs s : Event σ V X ι).result with
    | error x => exact Or.inl ⟨x, by rw [target.1, result]; rfl, rfl⟩
    | ok v => exact Or.inr ⟨.value v, by rw [target.1, result]; rfl⟩
  | @operand site form operands i t s s₁ trace next₁ here turn step ih =>
    obtain ⟨rfl, rfl⟩ := target
    rcases ih rfl with ⟨silent, same, t', rfl⟩ | ⟨e, only, left, ⟨x, rfl, stopped⟩ | ⟨t', rfl⟩⟩
    · exact Or.inl ⟨silent, same, _, rfl⟩
    · exact Or.inr ⟨e, only, left, Or.inl ⟨x, rfl, stopped⟩⟩
    · exact Or.inr ⟨e, only, left, Or.inr ⟨_, rfl⟩⟩

theorem sitesAll_mem {l : List (Term ι V ν κ)} {site : ι} :
    site ∈ sitesAll l ↔ ∃ t ∈ l, site ∈ t.sites := by
  induction l with
  | nil => simp [sitesAll]
  | cons t ts ih => simp [sitesAll, ih]

theorem step_sites (step : Step m t s trace next) :
    (∀ e ∈ trace, e.site ∈ t.sites) ∧ ∀ t', next.1 = .ok t' → t'.sites ⊆ t.sites := by
  induction step with
  | var y s =>
    refine ⟨by simp, ?_⟩
    intro t' here
    simp only [Except.ok.injEq] at here
    simp [← here, Term.sites]
  | fire site form vs s =>
    refine ⟨?_, ?_⟩
    · intro e mem
      rw [mem_singleton.mp mem]
      cases form <;> simp [Machine.fire, Term.sites]
    · intro t' here
      cases result : (m.fire site form vs s : Event σ V X ι).result with
      | error x => simp [result, Except.map] at here
      | ok u =>
        simp only [result, Except.map, Except.ok.injEq] at here
        simp [← here, Term.sites]
  | @operand site form operands i t s s₁ trace next here turn step ih =>
    have inside : t.sites ⊆ sitesAll operands := fun site mem =>
      sitesAll_mem.mpr ⟨t, mem_of_getElem? here, mem⟩
    refine ⟨fun e mem => mem_cons_of_mem _ (inside (ih.1 e mem)), ?_⟩
    intro t' target
    cases next with
    | error x => simp [Except.map] at target
    | ok u =>
      simp only [Except.map, Except.ok.injEq] at target
      subst target
      intro a mem
      simp only [Term.sites, mem_cons, sitesAll_mem] at mem ⊢
      rcases mem with rfl | ⟨w, mem, at'⟩
      · exact Or.inl rfl
      · rcases mem_or_eq_of_mem_set mem with old | rfl
        · exact Or.inr ⟨w, old, at'⟩
        · exact Or.inr ⟨t, mem_of_getElem? here, ih.2 _ rfl at'⟩

end Steps

/-! ## Free evaluations exist -/

mutual

/-- How many steps are left at most. -/
def Term.work : Term ι V ν κ → Nat
  | .value _ => 0
  | .var _ => 1
  | .node _ _ operands => 1 + workAll operands

/-- How many steps are left at most in some expressions. -/
def workAll : List (Term ι V ν κ) → Nat
  | [] => 0
  | t :: ts => t.work + workAll ts

end

theorem workAll_set {operands : List (Term ι V ν κ)} {i : Nat} {t t' : Term ι V ν κ}
    (here : operands[i]? = some t) (less : t'.work < t.work) :
    workAll (operands.set i t') < workAll operands := by
  induction operands generalizing i with
  | nil => simp at here
  | cons u us ih =>
    cases i with
    | zero =>
      simp only [getElem?_cons_zero, Option.some.injEq] at here
      subst here
      simp only [set_cons_zero, workAll]
      omega
    | succ i =>
      have rest := ih (by simpa using here)
      simp only [set_cons_succ, workAll]
      omega

section Runs

variable {m : Machine σ V X ν κ} {t t' : Term ι V ν κ} {s s' : σ}
  {trace : List (Event σ V X ι)} {r : Except X V × σ}

theorem step_work {next : Except X (Term ι V ν κ) × σ} (step : Step m t s trace next) :
    ∀ t', next.1 = .ok t' → t'.work < t.work := by
  induction step with
  | var y s =>
    intro t' here
    simp only [Except.ok.injEq] at here
    simp [← here, Term.work]
  | fire site form vs s =>
    intro t' here
    cases result : (m.fire site form vs s : Event σ V X ι).result with
    | error x => simp [result, Except.map] at here
    | ok u =>
      simp only [result, Except.map, Except.ok.injEq] at here
      simp only [← here, Term.work]
      omega
  | @operand site form operands i t s s₁ trace next here turn step ih =>
    intro t' target
    cases next with
    | error x => simp [Except.map] at target
    | ok u =>
      simp only [Except.map, Except.ok.injEq] at target
      subst target
      simp only [Term.work]
      have := workAll_set here (ih u rfl)
      omega

theorem value_before {vs : List V} {after : List (Term ι V ν κ)} {j : Nat} (hj : j < vs.length) :
    ∃ v, (vs.map (.value : V → Term ι V ν κ) ++ after)[j]? = some (.value v) := by
  refine ⟨vs[j], ?_⟩
  rw [getElem?_append_left (by simpa using hj)]
  simp [hj]

theorem getElem?_middle (us after : List (Term ι V ν κ)) (t : Term ι V ν κ) :
    (us ++ t :: after)[us.length]? = some t := by
  simp

theorem set_middle (us after : List (Term ι V ν κ)) (t t' : Term ι V ν κ) :
    (us ++ t :: after).set us.length t' = us ++ t' :: after := by
  simp

mutual

theorem progress (m : Machine σ V X ν κ) (t : Term ι V ν κ) (open' : ∀ v, t ≠ .value v) (s : σ) :
    ∃ trace next, Step m t s trace next := by
  cases t with
  | value v => exact absurd rfl (open' v)
  | var y => exact ⟨_, _, .var y s⟩
  | node site form operands =>
    rcases progressAll m operands s with ⟨vs, rfl⟩ | ⟨vs, t, after, rfl, trace, next, step⟩
    · exact ⟨_, _, .fire site form vs s⟩
    · refine ⟨_, _, .operand (i := vs.length) (t := t) ?_ ?_ step⟩
      · simp
      · intro _ j hj
        exact value_before hj

theorem progressAll (m : Machine σ V X ν κ) (operands : List (Term ι V ν κ)) (s : σ) :
    (∃ vs : List V, operands = vs.map .value) ∨
      ∃ (vs : List V) (t : Term ι V ν κ) (after : List (Term ι V ν κ)),
        operands = vs.map .value ++ t :: after ∧ ∃ trace next, Step m t s trace next := by
  cases operands with
  | nil => exact Or.inl ⟨[], rfl⟩
  | cons t ts =>
    by_cases done : ∃ v, t = .value v
    · obtain ⟨v, rfl⟩ := done
      rcases progressAll m ts s with ⟨vs, rfl⟩ | ⟨vs, u, after, rfl, step⟩
      · exact Or.inl ⟨v :: vs, rfl⟩
      · exact Or.inr ⟨v :: vs, u, after, rfl, step⟩
    · exact Or.inr ⟨[], t, ts, rfl, progress m t (fun v same => done ⟨v, same⟩) s⟩

end

theorem exists_runs (m : Machine σ V X ν κ) (t : Term ι V ν κ) (s : σ) :
    ∃ trace r, Runs m t s trace r := by
  generalize bound : t.work = n
  induction n using Nat.strongRecOn generalizing t s with
  | _ n ih =>
    by_cases done : ∃ v, t = .value v
    · obtain ⟨v, rfl⟩ := done
      exact ⟨_, _, .done v s⟩
    · obtain ⟨trace, ⟨next, s'⟩, step⟩ := progress m t (fun v same => done ⟨v, same⟩) s
      cases next with
      | error x => exact ⟨_, _, .halt step⟩
      | ok t' =>
        obtain ⟨trace', r, rest⟩ := ih t'.work (bound ▸ step_work step t' rfl) t' s' rfl
        exact ⟨_, _, .next step rest⟩

theorem runs_sites (runs : Runs m t s trace r) : ∀ e ∈ trace, e.site ∈ t.sites := by
  induction runs with
  | done v s => simp
  | halt step => exact (step_sites step).1
  | next step rest ih =>
    intro e mem
    rcases mem_append.mp mem with now | later
    · exact (step_sites step).1 e now
    · exact (step_sites step).2 _ rfl (ih e later)

/-- An evaluation whose last event shows what it comes to. -/
def Ends (run : Run σ V X ι V) : Prop :=
  ∃ init e, run.1 = init ++ [e] ∧ run.2 = (e.result, e.state)

theorem runs_ends (runs : Runs m t s trace r) (compound : t.isLeaf = false) :
    Ends (trace, r) := by
  induction runs with
  | done v s => simp [Term.isLeaf] at compound
  | halt step =>
    rcases step_events step with ⟨-, -, t', same⟩ | ⟨e, rfl, rfl, ⟨x, same, stopped⟩ | ⟨t', same⟩⟩
    · cases same
    · simp only [Except.error.injEq] at same
      exact ⟨[], e, rfl, by simp [stopped, same]⟩
    · cases same
  | @next t t' s s' trace trace' r step rest ih =>
    cases leaf : t'.isLeaf with
    | false =>
      obtain ⟨init, e, split, shown⟩ := ih leaf
      refine ⟨trace ++ init, e, ?_, shown⟩
      simp only at split
      simp [split]
    | true =>
      -- an operator steps to a leaf only when it is applied
      cases t with
      | value | var => simp [Term.isLeaf] at compound
      | node site form operands =>
        rcases step_node step with ⟨vs, -, rfl, target⟩ | ⟨i, t, next', s₁, -, -, -, target⟩
        · cases result : (m.fire site form vs s : Event σ V X ι).result with
          | error x => simp [result, Except.map] at target
          | ok u =>
            simp only [result, Except.map, Prod.mk.injEq, Except.ok.injEq] at target
            obtain ⟨rfl, rfl⟩ := target
            cases rest with
            | done v s => exact ⟨[], _, rfl, by simp [result]⟩
            | halt step | next step rest => exact absurd step not_step_value
        · cases next' with
          | error x => simp [Except.map] at target
          | ok u =>
            simp only [Except.map, Prod.mk.injEq, Except.ok.injEq] at target
            simp [target.1, Term.isLeaf] at leaf

end Runs

/-! ## Where the events of the evaluation in order happen -/

section InOrder

variable (m : Machine σ V X ν κ)

mutual

/-- The evaluation in order has its events at the sites of the expression, and it ends with
    an event when it stops. -/
theorem eval_events (t : Term ι V ν κ) (s : σ) :
    (∀ e ∈ (eval m t s : Run σ V X ι V).1, e.site ∈ t.sites) ∧
      ∀ trace x s', eval m t s = (trace, .error x, s') →
        ∃ init e, trace = init ++ [e] ∧ e.result = .error x ∧ e.state = s' := by
  cases t with
  | value v => simp [eval]
  | var y => simp [eval]
  | node site form operands =>
    have inside := evalOperands_events form operands s
    rw [eval]
    generalize evalOperands m form operands s = run at inside ⊢
    rcases run with ⟨trace, x | vs, s'⟩
    · refine ⟨fun e mem => mem_cons_of_mem _ (inside.1 e mem), ?_⟩
      intro trace' x' s'' same
      simp only [andThen_error, Prod.mk.injEq, Except.error.injEq] at same
      exact inside.2 _ _ _ (by rw [same.1, same.2.1, same.2.2])
    · refine ⟨?_, ?_⟩
      · intro e mem
        simp only [andThen_ok, Event.run, mem_append, mem_singleton] at mem
        rcases mem with before | rfl
        · exact mem_cons_of_mem _ (inside.1 e before)
        · cases form <;> simp [Machine.fire, Term.sites]
      · intro trace' x' s'' same
        simp only [andThen_ok, Event.run, Prod.mk.injEq] at same
        exact ⟨trace, _, same.1.symm, same.2.1, same.2.2⟩

theorem evalOperands_events (form : Form κ) (operands : List (Term ι V ν κ)) (s : σ) :
    (∀ e ∈ (evalOperands m form operands s : Run σ V X ι (List V)).1,
        e.site ∈ sitesAll operands) ∧
      ∀ trace x s', evalOperands m form operands s = (trace, .error x, s') →
        ∃ init e, trace = init ++ [e] ∧ e.result = .error x ∧ e.state = s' := by
  cases operands with
  | nil => simp [evalOperands]
  | cons t ts =>
    have first := eval_events t s
    rw [evalOperands]
    generalize eval m t s = run at first ⊢
    rcases run with ⟨trace, x | v, s'⟩
    · refine ⟨fun e mem => mem_append_left _ (first.1 e mem), ?_⟩
      intro trace' x' s'' same
      simp only [andThen_error, Prod.mk.injEq, Except.error.injEq] at same
      exact first.2 _ _ _ (by rw [same.1, same.2.1, same.2.2])
    · rw [andThen_ok]
      split
      · refine ⟨fun e mem => mem_append_left _ (first.1 e (by simpa using mem)), ?_⟩
        intro trace' x' s'' same
        simp at same
      · have others := evalOperands_events form ts s'
        generalize evalOperands m form ts s' = run at others ⊢
        rcases run with ⟨trace', x | vs, s''⟩
        · refine ⟨?_, ?_⟩
          · intro e mem
            rcases mem_append.mp mem with now | later
            · exact mem_append_left _ (first.1 e now)
            · exact mem_append_right _ (others.1 e later)
          · intro trace'' x' s₂ same
            simp only [andThen_error, Prod.mk.injEq, Except.error.injEq] at same
            obtain ⟨init, e, rfl, shown⟩ := others.2 _ _ _ rfl
            refine ⟨trace ++ init, e, by simp [← same.1], ?_⟩
            rw [← same.2.1, ← same.2.2]
            exact shown
        · refine ⟨?_, ?_⟩
          · intro e mem
            simp only [andThen_ok, append_nil] at mem
            rcases mem_append.mp mem with now | later
            · exact mem_append_left _ (first.1 e now)
            · exact mem_append_right _ (others.1 e later)
          · intro trace'' x' s₂ same
            simp at same

end

variable {m}

theorem eval_ends {t : Term ι V ν κ} (compound : t.isLeaf = false) (s : σ) :
    Ends (eval m t s : Run σ V X ι V) := by
  cases t with
  | value | var => simp [Term.isLeaf] at compound
  | node site form operands =>
    have stops := (eval_events m (.node site form operands) s).2
    rw [eval] at stops ⊢
    generalize evalOperands m form operands s = run at stops ⊢
    rcases run with ⟨trace, x | vs, s'⟩
    · obtain ⟨init, e, split, result, state⟩ := stops _ _ _ rfl
      exact ⟨init, e, split, by simp [result, state]⟩
    · exact ⟨trace, _, rfl, rfl⟩

theorem Ends.same {a b : Run σ V X ι V} (ha : Ends a) (hb : Ends b) (traces : a.1 = b.1) :
    a = b := by
  obtain ⟨init, e, split, shown⟩ := ha
  obtain ⟨init', e', split', shown'⟩ := hb
  have last : init ++ [e] = init' ++ [e'] := by rw [← split, ← split', traces]
  obtain ⟨-, same⟩ := append_inj' last rfl
  simp only [List.cons.injEq, and_true] at same
  exact Prod.ext traces (by rw [shown, shown', same])

theorem split_by_site {sites : List ι} [DecidableEq ι] {a b c d : List (Event σ V X ι)}
    (ha : ∀ e ∈ a, e.site ∈ sites) (hb : ∀ e ∈ b, e.site ∈ sites)
    (hc : ∀ e ∈ c, e.site ∉ sites) (hd : ∀ e ∈ d, e.site ∉ sites) (same : a ++ c = b ++ d) :
    a = b ∧ c = d := by
  have kept {l : List (Event σ V X ι)} (h : ∀ e ∈ l, e.site ∈ sites) :
      l.filter (·.site ∈ sites) = l := filter_eq_self.mpr (by simpa using h)
  have dropped {l : List (Event σ V X ι)} (h : ∀ e ∈ l, e.site ∉ sites) :
      l.filter (·.site ∈ sites) = [] := filter_eq_nil_iff.mpr (by simpa using h)
  have front := congrArg (List.filter (·.site ∈ sites)) same
  simp only [filter_append, kept ha, kept hb, dropped hc, dropped hd,
    append_nil] at front
  exact ⟨front, append_cancel_left (front ▸ same)⟩

end InOrder

/-! ## Evaluations of operands inside an operator -/

section Inside

variable {m : Machine σ V X ν κ} {site : ι} {form : Form κ} {operands : List (Term ι V ν κ)}
  {i : Nat} {t : Term ι V ν κ} {s s' : σ} {trace : List (Event σ V X ι)}

/-- It is the turn of an operand. -/
def Turn (form : Form κ) (operands : List (Term ι V ν κ)) (i : Nat) : Prop :=
  form.isOrdered = true → ∀ j < i, ∃ v, operands[j]? = some (.value v)

theorem turn_of_unordered (unordered : form.isOrdered = false) : Turn form operands i := by
  intro ordered
  rw [unordered] at ordered
  cases ordered

theorem Turn.set (turn : Turn form operands i) (t' : Term ι V ν κ) :
    Turn form (operands.set i t') i := by
  intro ordered j hj
  obtain ⟨v, here⟩ := turn ordered j hj
  exact ⟨v, by rw [getElem?_set_ne (Nat.ne_of_gt hj), here]⟩

theorem runs_operand_error {x : X} (runs : Runs m t s trace (.error x, s'))
    (here : operands[i]? = some t) (turn : Turn form operands i) :
    Runs m (.node site form operands) s trace (.error x, s') := by
  generalize target : ((.error x, s') : Except X V × σ) = r at runs
  induction runs generalizing operands with
  | done v s => cases target
  | halt step =>
    exact .halt (.operand here turn step)
  | next step rest ih =>
    refine .next (.operand here turn step) (ih ?_ (turn.set _) target)
    exact getElem?_set_self (List.getElem?_eq_some_iff.mp here).1

theorem runs_operand_ok {v : V} (runs : Runs m t s trace (.ok v, s'))
    (here : operands[i]? = some t) (turn : Turn form operands i)
    {trace' : List (Event σ V X ι)} {r : Except X V × σ}
    (rest : Runs m (.node site form (operands.set i (.value v))) s' trace' r) :
    Runs m (.node site form operands) s (trace ++ trace') r := by
  generalize target : ((.ok v, s') : Except X V × σ) = r' at runs
  induction runs generalizing operands with
  | done u s =>
    obtain ⟨rfl, rfl⟩ := target
    have same : operands.set i (.value v) = operands := by
      obtain ⟨inside, same⟩ := List.getElem?_eq_some_iff.mp here
      rw [← same]
      exact set_getElem_self inside
    rw [same] at rest
    exact rest
  | halt step => cases target
  | next step rest' ih =>
    rw [append_assoc]
    refine .next (.operand here turn step) (ih ?_ (turn.set _) ?_ target)
    · exact getElem?_set_self (List.getElem?_eq_some_iff.mp here).1
    · rw [set_set]
      exact rest

end Inside

end Operands
