import Kryndel.Evaluation.Settled

/-!
# Operators under other names, and machines compared

A translation that keeps the shape of an expression gives its operators other names. The
translated expression has the free evaluations of the original one, read through the
renaming. Machines that agree on the operators of an expression evaluate it alike, and it
is settled for both or for neither. A machine with a richer state follows another one as
long as that does not stop in a way in which the two differ.
-/

namespace Operands

open List

variable {ι σ V X ν κ μ : Type}

/-! ## Renaming -/

/-- The operator under its new name. -/
def Form.rename (f : κ → μ) : Form κ → Form μ
  | .ordered op => .ordered (f op)
  | .unordered op => .unordered (f op)
  | .connective b => .connective b

mutual

/-- The expression with its operators renamed. -/
def Term.rename (f : κ → μ) : Term ι V ν κ → Term ι V ν μ
  | .value v => .value v
  | .var x => .var x
  | .node site form operands => .node site (form.rename f) (renameAll f operands)

/-- Some expressions with their operators renamed. -/
def renameAll (f : κ → μ) : List (Term ι V ν κ) → List (Term ι V ν μ)
  | [] => []
  | t :: ts => t.rename f :: renameAll f ts

end

attribute [local simp] Term.rename in
theorem renameAll_eq_map (f : κ → μ) (ts : List (Term ι V ν κ)) :
    renameAll f ts = ts.map (Term.rename f) := by
  induction ts with
  | nil => rfl
  | cons t ts ih => simp [renameAll, ih]

theorem isOrdered_rename (f : κ → μ) (form : Form κ) :
    (form.rename f).isOrdered = form.isOrdered := by
  cases form <;> rfl

variable {t : Term ι V ν κ}

theorem rename_eq_value {f : κ → μ} {v : V} :
    t.rename f = .value v ↔ t = .value v := by
  cases t <;> simp [Term.rename]

/-- A machine for the new names works on expressions with the old ones. -/
def Machine.through (f : κ → μ) (m : Machine σ V X ν μ) : Machine σ V X ν κ where
  read := m.read
  apply op := m.apply (f op)
  truth := m.truth
  bool := m.bool

variable {m : Machine σ V X ν μ} {f : κ → μ}

theorem fire_rename (site : ι) (form : Form κ) (vs : List V) (s : σ) :
    (m.fire site (form.rename f) vs s : Event σ V X ι) = (m.through f).fire site form vs s := by
  cases form <;> rfl

/-! ## Steps -/

variable {trace : List (Event σ V X ι)} {s : σ}

theorem step_rename {next : Except X (Term ι V ν κ) × σ}
    (step : Step (m.through f) t s trace next) :
    Step m (t.rename f) s trace (next.1.map (Term.rename f), next.2) := by
  induction step with
  | var x s => exact .var x s
  | fire site form vs s =>
    have values : renameAll f (vs.map (.value : V → Term ι V ν κ)) = vs.map .value := by
      simp [renameAll_eq_map, Term.rename]
    have step := Step.fire (m := m) site (form.rename f) vs s
    rw [fire_rename] at step
    rw [Term.rename, values]
    convert step using 2
    cases ((m.through f).fire site form vs s : Event σ V X ι).result <;> rfl
  | @operand site form operands i t s s' trace next here turn step ih =>
    have there : (renameAll f operands)[i]? = some (t.rename f) := by
      simp [renameAll_eq_map, here]
    have after : (form.rename f).isOrdered = true →
        ∀ j < i, ∃ v, (renameAll f operands)[j]? = some (.value v) := by
      intro ordered j hj
      rw [isOrdered_rename] at ordered
      obtain ⟨v, value⟩ := turn ordered j hj
      exact ⟨v, by simp [renameAll_eq_map, value, Term.rename]⟩
    have inner : Step m (.node site (form.rename f) (renameAll f operands)) s trace _ :=
      Step.operand there after ih
    rw [Term.rename]
    convert inner using 2
    cases next with
    | error x => rfl
    | ok t' => simp [Except.map, Term.rename, renameAll_eq_map, map_set]

theorem step_of_rename {next : Except X (Term ι V ν μ) × σ}
    (step : Step m (t.rename f) s trace next) :
    ∃ next', Step (m.through f) t s trace (next', next.2) ∧
      next.1 = next'.map (Term.rename f) := by
  generalize same : t.rename f = u at step
  induction step generalizing t with
  | var x s =>
    cases t with
    | value v => cases same
    | var y =>
      cases same
      exact ⟨_, .var x s, rfl⟩
    | node site form operands => cases same
  | fire site form vs s =>
    cases t with
    | value v => cases same
    | var y => cases same
    | node site' form' operands =>
      simp only [Term.rename, Term.node.injEq] at same
      obtain ⟨rfl, rfl, values⟩ := same
      have original : operands = vs.map .value := by
        rw [renameAll_eq_map] at values
        apply ext_getElem?
        intro i
        have at' := congrArg (·[i]?) values
        simp only [getElem?_map] at at' ⊢
        cases here : operands[i]? <;> cases there : vs[i]? <;>
          simp_all [rename_eq_value]
      rw [original, fire_rename]
      refine ⟨_, .fire site' form' vs s, ?_⟩
      cases ((m.through f).fire site' form' vs s : Event σ V X ι).result <;> rfl
  | @operand site form operands i u s s' trace next here turn step ih =>
    cases t with
    | value v => cases same
    | var y => cases same
    | node site' form' originals =>
      obtain ⟨rfl, rfl, rfl⟩ := same
      rw [renameAll_eq_map, getElem?_map, Option.map_eq_some_iff] at here
      obtain ⟨t, here, renamed⟩ := here
      obtain ⟨next', inner, reached⟩ := ih renamed
      refine ⟨_, .operand here ?_ inner, ?_⟩
      · intro ordered j hj
        obtain ⟨v, value⟩ := turn (by rw [isOrdered_rename, ordered]) j hj
        rw [renameAll_eq_map, getElem?_map, Option.map_eq_some_iff] at value
        obtain ⟨t', there, value⟩ := value
        exact ⟨v, by rw [there, rename_eq_value.mp value]⟩
      · simp only at reached
        rw [reached]
        cases next' with
        | error x => rfl
        | ok t' => simp [Except.map, Term.rename, renameAll_eq_map, map_set]

/-- The free evaluations of a renamed expression are those of the original, with a machine
    that knows the new names. -/
theorem runs_rename_iff {r : Except X V × σ} :
    Runs m (t.rename f) s trace r ↔ Runs (m.through f) t s trace r := by
  constructor
  · intro runs
    generalize same : t.rename f = u at runs
    induction runs generalizing t with
    | done v s =>
      rw [rename_eq_value.mp same]
      exact .done v s
    | @halt u s s' trace x step =>
      subst same
      obtain ⟨next', inner, reached⟩ := step_of_rename step
      cases next' with
      | error y =>
        simp only [Except.map, Except.error.injEq] at reached
        subst reached
        exact .halt inner
      | ok t' => cases reached
    | @next u u' s s' trace trace' r step rest ih =>
      subst same
      obtain ⟨next', inner, reached⟩ := step_of_rename step
      cases next' with
      | error y => cases reached
      | ok t' =>
        simp only [Except.map, Except.ok.injEq] at reached
        exact .next inner (ih reached.symm)
  · intro runs
    induction runs with
    | done v s => exact .done v s
    | halt step => exact .halt (step_rename step)
    | next step rest ih => exact .next (step_rename step) ih

/-! ## Machines that agree on the operators of an expression -/

/-- A condition on the operation of an operator. Connectives meet it. -/
def Form.AllOps (P : κ → Prop) : Form κ → Prop
  | .ordered op => P op
  | .unordered op => P op
  | .connective _ => True

mutual

/-- A condition on all operations of an expression. -/
def Term.AllOps (P : κ → Prop) : Term ι V ν κ → Prop
  | .value _ => True
  | .var _ => True
  | .node _ form operands => form.AllOps P ∧ AllOpsAll P operands

/-- A condition on all operations of some expressions. -/
def AllOpsAll (P : κ → Prop) : List (Term ι V ν κ) → Prop
  | [] => True
  | t :: ts => t.AllOps P ∧ AllOpsAll P ts

end

/-- Two machines that read variables alike and share their truth values. -/
structure Alike (m m' : Machine σ V X ν κ) : Prop where
  read : m.read = m'.read
  truth : m.truth = m'.truth
  bool : m.bool = m'.bool

variable {m₁ m₂ : Machine σ V X ν κ}

theorem fire_congr (alike : Alike m₁ m₂) {form : Form κ}
    (same : form.AllOps fun op => m₁.apply op = m₂.apply op) (site : ι) (vs : List V) (s : σ) :
    (m₁.fire site form vs s : Event σ V X ι) = m₂.fire site form vs s := by
  cases form with
  | ordered op | unordered op => simp only [Machine.fire, show m₁.apply op = m₂.apply op from same]
  | connective b => simp only [Machine.fire, alike.truth, alike.bool]

theorem decides_congr (alike : Alike m₁ m₂) : m₁.decides = m₂.decides := by
  funext form v
  cases form <;> simp [Machine.decides, alike.truth]

theorem leafValue_congr (alike : Alike m₁ m₂) (s : σ) :
    (m₁.leafValue s : Term ι V ν κ → V) = m₂.leafValue s := by
  funext t
  cases t <;> simp [Machine.leafValue, alike.read, alike.bool]

mutual

theorem eval_congr (alike : Alike m₁ m₂) (t : Term ι V ν κ)
    (same : t.AllOps fun op => m₁.apply op = m₂.apply op) (s : σ) :
    (eval m₁ t s : Run σ V X ι V) = eval m₂ t s := by
  cases t with
  | value v => simp only [eval]
  | var x => simp only [eval, alike.read]
  | node site form operands =>
    simp only [eval, evalOperands_congr alike form operands same.2 s,
      fire_congr alike same.1 site]

theorem evalOperands_congr (alike : Alike m₁ m₂) (form : Form κ) (ts : List (Term ι V ν κ))
    (same : AllOpsAll (fun op => m₁.apply op = m₂.apply op) ts) (s : σ) :
    (evalOperands m₁ form ts s : Run σ V X ι (List V)) = evalOperands m₂ form ts s := by
  cases ts with
  | nil => simp only [evalOperands]
  | cons t ts =>
    have rest := evalOperands_congr alike form ts same.2
    simp only [evalOperands, eval_congr alike t same.1 s, decides_congr alike, rest]

end

theorem readings_congr (alike : Alike m₁ m₂) (states : List σ) (ts : List (Term ι V ν κ))
    (vs : List V) : Readings m₁ states ts vs ↔ Readings m₂ states ts vs := by
  simp only [Readings, leafValue_congr alike]

mutual

theorem settled_congr (alike : Alike m₁ m₂) (t : Term ι V ν κ)
    (same : t.AllOps fun op => m₁.apply op = m₂.apply op) (s : σ) :
    Settled m₁ t s ↔ Settled m₂ t s := by
  cases t with
  | value v => simp only [Settled]
  | var x => simp only [Settled]
  | node site form operands =>
    simp only [Settled, settledInOrder_congr alike operands same.2 s,
      settledAmong_congr alike site form same.1 [] operands same.2 s]

theorem settledInOrder_congr (alike : Alike m₁ m₂) (ts : List (Term ι V ν κ))
    (same : AllOpsAll (fun op => m₁.apply op = m₂.apply op) ts) (s : σ) :
    SettledInOrder m₁ ts s ↔ SettledInOrder m₂ ts s := by
  cases ts with
  | nil => simp only [SettledInOrder]
  | cons t ts =>
    have rest := settledInOrder_congr alike ts same.2
    simp only [SettledInOrder, settled_congr alike t same.1 s, eval_congr alike t same.1 s, rest]

theorem settledAmong_congr (alike : Alike m₁ m₂) (site : ι) (form : Form κ)
    (own : form.AllOps fun op => m₁.apply op = m₂.apply op) (before ts : List (Term ι V ν κ))
    (same : AllOpsAll (fun op => m₁.apply op = m₂.apply op) ts) (s : σ) :
    SettledAmong m₁ site form before ts s ↔ SettledAmong m₂ site form before ts s := by
  cases ts with
  | nil => simp only [SettledAmong]
  | cons t ts =>
    have rest := settledAmong_congr alike site form own (before ++ [t]) ts same.2 s
    simp only [SettledAmong, rest, settled_congr alike t same.1 s, eval_congr alike t same.1 s,
      decides_congr alike, leafValue_congr alike, readings_congr alike, fire_congr alike own]

end

/-! ## How many operands operators have -/

mutual

/-- Operators of a kind have at most `n` operands. -/
def Term.Within (kind : κ → Bool) (n : Nat) : Term ι V ν κ → Prop
  | .value _ => True
  | .var _ => True
  | .node _ form operands =>
    form.AllOps (fun op => kind op = true → operands.length ≤ n) ∧ WithinAll kind n operands

/-- `Within` for some expressions. -/
def WithinAll (kind : κ → Bool) (n : Nat) : List (Term ι V ν κ) → Prop
  | [] => True
  | t :: ts => t.Within kind n ∧ WithinAll kind n ts

end

theorem allOps_rename (f : κ → μ) (P : μ → Prop) (form : Form κ) :
    (form.rename f).AllOps P ↔ form.AllOps fun op => P (f op) := by
  cases form <;> rfl

mutual

theorem within_rename (f : κ → μ) (kind : μ → Bool) (n : Nat) (t : Term ι V ν κ) :
    (t.rename f).Within kind n ↔ t.Within (fun op => kind (f op)) n := by
  cases t with
  | value | var => simp only [Term.rename, Term.Within]
  | node site form operands =>
    simp only [Term.rename, Term.Within, allOps_rename, withinAll_rename f kind n operands]
    rw [renameAll_eq_map, length_map]

theorem withinAll_rename (f : κ → μ) (kind : μ → Bool) (n : Nat) (ts : List (Term ι V ν κ)) :
    WithinAll kind n (renameAll f ts) ↔ WithinAll (fun op => kind (f op)) n ts := by
  cases ts with
  | nil => simp only [renameAll, WithinAll]
  | cons t ts =>
    simp only [renameAll, WithinAll, within_rename f kind n t, withinAll_rename f kind n ts]

end

/-! ## Machines with other states -/

section Follows

variable {τ α β : Type}

/-- The evaluation as it looks when states are shown by `f`. -/
def Run.mapState (f : σ → τ) (r : Run σ V X ι α) : Run τ V X ι α :=
  (r.1.map fun e => ⟨e.site, e.operands, e.result, f e.state⟩, r.2.1, f r.2.2)

/-- A machine does what another one does, on states shown by `f`, unless it stops in a way
    that is `bad`. -/
structure Follows (m : Machine σ V X ν κ) (m' : Machine τ V X ν κ) (f : σ → τ)
    (bad : X → Prop) : Prop where
  read : ∀ s, m'.read (f s) = m.read s
  truth : m'.truth = m.truth
  bool : m'.bool = m.bool
  apply : ∀ op vs s, (∀ x, bad x → (m.apply op vs s).1 ≠ .error x) →
    m'.apply op vs (f s) = ((m.apply op vs s).1, f (m.apply op vs s).2)

variable {m : Machine σ V X ν κ} {m' : Machine τ V X ν κ} {f : σ → τ} {bad : X → Prop}

/-- An evaluation that does not stop in a bad way. -/
def Good (bad : X → Prop) (r : Run σ V X ι α) : Prop :=
  ∀ x, bad x → r.2.1 ≠ .error x

variable {r : Run σ V X ι α}

theorem Good.first {next : α → σ → Run σ V X ι β} (good : Good bad (r.andThen next)) :
    Good bad r := by
  rcases r with ⟨trace, x | a, s⟩
  · intro y isBad same
    cases same
    exact good x isBad rfl
  · intro x _ same
    cases same

theorem Good.next {trace : List (Event σ V X ι)} {a : α} {s : σ}
    {next : α → σ → Run σ V X ι β} (good : Good bad (Run.andThen (trace, .ok a, s) next)) :
    Good bad (next a s) :=
  good

theorem mapState_andThen (f : σ → τ) {next : α → σ → Run σ V X ι β} {next' : α → τ → Run τ V X ι β}
    (same : ∀ trace a s, r = (trace, .ok a, s) → next' a (f s) = (next a s).mapState f) :
    (r.mapState f).andThen next' = (r.andThen next).mapState f := by
  rcases r with ⟨trace, x | a, s⟩
  · rfl
  · have here := same trace a s rfl
    simp only [Run.mapState, andThen_ok, here, map_append]

theorem fire_follows (follows : Follows m m' f bad) (site : ι) (form : Form κ) (vs : List V)
    (s : σ) (good : Good bad (m.fire site form vs s).run) :
    (m'.fire site form vs (f s)).run = (m.fire site form vs s).run.mapState f := by
  cases form with
  | ordered op | unordered op =>
    simp only [Machine.fire, Event.run, follows.apply op vs s good, Run.mapState, map_cons,
      map_nil]
  | connective b =>
    simp only [Machine.fire, Event.run, follows.truth, follows.bool, Run.mapState, map_cons,
      map_nil]

theorem decides_follows (follows : Follows m m' f bad) : m'.decides = m.decides := by
  funext form v
  cases form <;> simp [Machine.decides, follows.truth]

mutual

theorem eval_follows (follows : Follows m m' f bad) (t : Term ι V ν κ) (s : σ)
    (good : Good bad (eval m t s : Run σ V X ι V)) :
    (eval m' t (f s) : Run τ V X ι V) = (eval m t s).mapState f := by
  cases t with
  | value v => simp only [eval, Run.mapState, map_nil]
  | var x => simp only [eval, Run.mapState, map_nil, follows.read]
  | node site form operands =>
    simp only [eval] at good ⊢
    rw [evalOperands_follows follows form operands s good.first]
    apply mapState_andThen
    intro trace vs s' ended
    rw [ended] at good
    exact fire_follows follows site form vs s' good.next

theorem evalOperands_follows (follows : Follows m m' f bad) (form : Form κ)
    (ts : List (Term ι V ν κ)) (s : σ)
    (good : Good bad (evalOperands m form ts s : Run σ V X ι (List V))) :
    (evalOperands m' form ts (f s) : Run τ V X ι (List V)) =
      (evalOperands m form ts s).mapState f := by
  cases ts with
  | nil => simp only [evalOperands, Run.mapState, map_nil]
  | cons t ts =>
    simp only [evalOperands] at good ⊢
    rw [eval_follows follows t s good.first]
    apply mapState_andThen
    intro trace v s' ended
    rw [ended] at good
    have good := good.next
    rw [decides_follows follows]
    split
    · rfl
    · next undecided =>
      rw [if_neg undecided] at good
      rw [evalOperands_follows follows form ts s' good.first]
      apply mapState_andThen
      intro trace' vs s'' ended'
      rfl

end

end Follows

end Operands
