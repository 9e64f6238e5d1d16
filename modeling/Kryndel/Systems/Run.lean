import Mathlib.Data.List.Basic

/-!
# Runs of a system

A system takes moves, some of which are not possible in some of its states. What every move
made under a condition preserves holds at the end of every run whose moves are all made
under it.
-/

namespace Systems

variable {S M : Type} (step : S → M → Option S)

/-- The state after a sequence of moves, if each of them is possible. -/
def run : S → List M → Option S
  | s, [] => some s
  | s, m :: ms => (step s m).bind fun s' => run s' ms

/-- Each move of a sequence is made in a state that meets a condition. -/
def Meets (condition : S → M → Prop) : S → List M → Prop
  | _, [] => True
  | s, m :: ms => condition s m ∧ ∀ s', step s m = some s' → Meets condition s' ms

variable {step} {condition : S → M → Prop}

attribute [local simp] run in
theorem run_cons {s s₁ : S} {m : M} (h : step s m = some s₁) (ms : List M) :
    run step s (m :: ms) = run step s₁ ms := by
  rw [run, h, Option.bind_some]

variable {ms : List M} {s s' : S}

theorem run_cons_some {m : M} (h : run step s (m :: ms) = some s') :
    ∃ s₁, step s m = some s₁ ∧ run step s₁ ms = some s' := by
  exact Option.bind_eq_some_iff.mp h

theorem run_append (s : S) (ms ns : List M) :
    run step s (ms ++ ns) = (run step s ms).bind fun s' => run step s' ns := by
  induction ms generalizing s with
  | nil => rfl
  | cons m ms ih =>
    rw [List.cons_append, run, run, Option.bind_assoc]
    congr
    funext s'
    exact ih s'

variable {P : S → Prop}

theorem run_preserves (hstep : ∀ s m s', P s → condition s m → step s m = some s' → P s')
    (hinv : P s) (hmeets : Meets step condition s ms) (hrun : run step s ms = some s') : P s' := by
  induction ms generalizing s with
  | nil =>
    cases hrun
    exact hinv
  | cons m ms ih =>
    obtain ⟨s₁, hs, hrest⟩ := run_cons_some hrun
    exact ih (hstep s m s₁ hinv hmeets.1 hs) (hmeets.2 s₁ hs) hrest

theorem run_invariant (hstep : ∀ s m s', P s → step s m = some s' → P s') (hinv : P s)
    (hrun : run step s ms = some s') : P s' := by
  induction ms generalizing s with
  | nil =>
    cases hrun
    exact hinv
  | cons m ms ih =>
    obtain ⟨s₁, hs, hrest⟩ := run_cons_some hrun
    exact ih (hstep s m s₁ hinv hs) hrest

/-- What a move keeps just when it is made under the condition holds all along a run just when
    all moves of the run are made under it. -/
theorem run_keeps_iff (htotal : ∀ s m, ∃ s', step s m = some s')
    (hstep : ∀ s m s', P s → step s m = some s' → (P s' ↔ condition s m)) (hinv : P s)
    (ms : List M) :
    (∀ before s', before <+: ms → run step s before = some s' → P s') ↔
      Meets step condition s ms := by
  induction ms generalizing s with
  | nil =>
    refine ⟨fun _ => trivial, ?_⟩
    intro _ before s' hbefore hrun
    rw [List.prefix_nil.mp hbefore] at hrun
    cases hrun
    exact hinv
  | cons m ms ih =>
    obtain ⟨s₁, hs₁⟩ := htotal s m
    constructor
    · intro hall
      have hinv₁ : P s₁ := by
        refine hall [m] s₁ (by simp) ?_
        rw [run_cons hs₁]
        rfl
      refine ⟨(hstep s m s₁ hinv hs₁).mp hinv₁, ?_⟩
      intro s₂ hs₂
      obtain rfl := Option.some.inj (hs₁.symm.trans hs₂)
      refine (ih hinv₁).mp fun before s' hbefore hrun => ?_
      refine hall (m :: before) s' (List.cons_prefix_cons.mpr ⟨rfl, hbefore⟩) ?_
      rw [run_cons hs₁, hrun]
    · rintro ⟨hcondition, hrest⟩ before s' hbefore hrun
      have hinv₁ := (hstep s m s₁ hinv hs₁).mpr hcondition
      cases before with
      | nil =>
        cases hrun
        exact hinv
      | cons m' before =>
        obtain ⟨rfl, hrestBefore⟩ := List.cons_prefix_cons.mp hbefore
        rw [run_cons hs₁] at hrun
        exact (ih hinv₁).mpr (hrest s₁ hs₁) before s' hrestBefore hrun

end Systems
