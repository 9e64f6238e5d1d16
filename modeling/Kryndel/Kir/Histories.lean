import Kryndel.Kir.ExecState
import Mathlib.Data.List.GetD

/-!
# What computations do to scopes

The log of the executor, read scope by scope. A computation is described by what it adds to the
log, by the scopes that it makes, and by the value that it lets wait; the descriptions are for
runs in which no call is made while a value waits.
-/

namespace Kryndel.KIRExec

open List Option

/-! ## Histories of scopes -/

/-- What the log says about a scope. -/
def about (scope : Nat) (log : List (Nat × Moment)) : List Moment :=
  log.filterMap fun entry => if entry.1 = scope then some entry.2 else none

/-- The bodies that are registered in a history. -/
def registered (history : List Moment) : List (List ExecStmt) :=
  history.filterMap Moment.body

/-- The value that is to be returned at once, if there is one. -/
def raisedIn (history : List Moment) : Option Value :=
  (history.filterMap Moment.value).getLast?

/-- Has the block been left? -/
def isLeft (history : List Moment) : Prop :=
  ∃ result, Moment.left result ∈ history

/-- Some deferred bodies that ran one after the other, none of them with a value waiting. -/
def ranAll (bodies : List (List ExecStmt)) (failures : List (Option ExecDiagnostic)) :
    List Moment :=
  List.zipWith (fun body failure => .ran body false failure) bodies failures

/-- What a block ends with: the first diagnostic, or else what its statements ended with. -/
def reported (outcome : Except ExecDiagnostic KIRExecFlow)
    (failures : List (Option ExecDiagnostic)) : Except ExecDiagnostic KIRExecFlow :=
  match (failureOf outcome).or (failures.findSome? id) with
  | some d => .error d
  | none => outcome

/-- Statements end by returning a value. At the top level they may be stopped then. -/
def Returns (top : Bool) (v : Value) (outcome : Except ExecDiagnostic KIRExecFlow) : Prop :=
  outcome = .ok (.returned v) ∨ top = true ∧ (failureOf outcome).isSome = true

/-- The history of a block that was executed and left. Its statements ended with the value that
    was to be returned at once, if there was one. Then all the bodies that were registered ran,
    once each and the last one first, whatever became of the others, and the block ended with the
    first diagnostic or else as its statements had. -/
def IsOrderly (top : Bool) (history : List Moment) : Prop :=
  ∃ opening outcome failures,
    (∀ m ∈ opening, Moment.isOpening m = true) ∧
    (∀ v, raisedIn opening = some v → Returns top v outcome) ∧
    failures.length = (registered opening).length ∧
    history = opening ++ .ended outcome ::
      (ranAll (registered opening).reverse failures ++ [.left (reported outcome failures)])

/-- The history of a scope in which a block may have been executed. -/
def Orderly (top : Bool) (history : List Moment) : Prop :=
  history = [] ∨ IsOrderly top history

variable {scope : Nat} {log log' : List (Nat × Moment)}

@[simp] theorem about_nil : about scope [] = [] := rfl

@[simp] theorem about_append : about scope (log ++ log') = about scope log ++ about scope log' :=
  filterMap_append

@[simp] theorem about_single (m : Moment) : about scope [(scope, m)] = [m] := by
  simp [about]

theorem about_other {s : Nat} (h : s ≠ scope) (m : Moment) : about scope [(s, m)] = [] := by
  simp [about, h]

theorem mem_about {m : Moment} : m ∈ about scope log ↔ (scope, m) ∈ log := by
  simp [about]

theorem about_eq_nil (h : ∀ entry ∈ log, entry.1 ≠ scope) : about scope log = [] := by
  apply eq_nil_iff_forall_not_mem.mpr
  intro m hm
  exact h _ (mem_about.mp hm) rfl

@[simp] theorem registered_nil : registered [] = [] := rfl

variable {h' h : List Moment}

@[simp] theorem registered_append :
    registered (h ++ h') = registered h ++ registered h' :=
  filterMap_append

@[simp] theorem raisedIn_nil : raisedIn [] = none := rfl

theorem raisedIn_append :
    raisedIn (h ++ h') = (raisedIn h').or (raisedIn h) := by
  rw [raisedIn, filterMap_append, getLast?_append]
  rfl

theorem eq_nil_of_raisedIn (hraised : ∀ m ∈ h, ∃ v, m = .raised v) (hnone : raisedIn h = none) :
    h = [] := by
  rw [raisedIn, getLast?_eq_none_iff, filterMap_eq_nil_iff] at hnone
  apply eq_nil_iff_forall_not_mem.mpr
  intro m hm
  obtain ⟨v, rfl⟩ := hraised m hm
  cases hnone _ hm

/-! ## Frames -/

section Frame

variable {ω : Type}

/-- The scopes that a computation touches. In the old ones it adds entries of a kind to the log,
    and the bodies that are registered there. The new ones have orderly histories once they
    are left, all of them if it ends. -/
structure Frame (own : Nat × Moment → Prop) (ended : Bool) (st : ExecState ω)
    (new : List (Nat × Moment)) (st' : ExecState ω) : Prop where
  grows : st.defers.length ≤ st'.defers.length
  kept : ∀ s, s < st.defers.length →
    st'.defers.getD s [] = st.defers.getD s [] ++ registered (about s new)
  bounded : ∀ entry ∈ new, entry.1 < st'.defers.length
  own : ∀ entry ∈ new, entry.1 < st.defers.length → own entry
  orderly : ∀ s, st.defers.length ≤ s → ended = true ∨ isLeft (about s new) →
    Orderly false (about s new)

variable {own own' : Nat × Moment → Prop} {ended : Bool} {st st₁ st' : ExecState ω}
  {new new' : List (Nat × Moment)}

theorem Frame.quiet (h : st'.defers = st.defers) : Frame own ended st [] st' where
  grows := by rw [h]
  kept s _ := by rw [h]; simp
  bounded entry hentry := by cases hentry
  own entry hentry := by cases hentry
  orderly s _ _ := .inl rfl

theorem Frame.mono (h : Frame own ended st new st') (himp : ∀ entry, own entry → own' entry) :
    Frame own' ended st new st' :=
  ⟨h.grows, h.kept, h.bounded, fun entry hentry hold => himp entry (h.own entry hentry hold),
    h.orderly⟩

theorem Frame.about_old (h : Frame own ended st new st') (hno : ∀ entry, ¬ own entry) {s : Nat}
    (hs : s < st.defers.length) : about s new = [] := by
  apply about_eq_nil
  intro entry hentry heq
  exact hno entry (h.own entry hentry (heq ▸ hs))

theorem Frame.congr (h : Frame own ended st new st₁) (hdefers : st'.defers = st₁.defers) :
    Frame own ended st new st' :=
  ⟨hdefers ▸ h.grows, hdefers ▸ h.kept, hdefers ▸ h.bounded, h.own, h.orderly⟩

theorem Frame.trans (h : Frame own true st new st₁) (h' : Frame own ended st₁ new' st')
    (hown : ∀ entry, own entry → entry.1 < st.defers.length) :
    Frame own ended st (new ++ new') st' where
  grows := h.grows.trans h'.grows
  kept s hs := by
    rw [h'.kept s (hs.trans_le h.grows), h.kept s hs, about_append, registered_append,
      append_assoc]
  bounded entry hentry := by
    rcases mem_append.mp hentry with hfirst | hthen
    · exact (h.bounded entry hfirst).trans_le h'.grows
    · exact h'.bounded entry hthen
  own entry hentry hold := by
    rcases mem_append.mp hentry with hfirst | hthen
    · exact h.own entry hfirst hold
    · exact h'.own entry hthen (hold.trans_le h.grows)
  orderly s hs hleft := by
    rw [about_append] at hleft ⊢
    by_cases hold : s < st₁.defers.length
    · -- the second computation says nothing about the scopes that the first one made
      have hnone : about s new' = [] := by
        apply about_eq_nil
        intro entry hentry heq
        have hlt := hown entry (h'.own entry hentry (heq ▸ hold))
        omega
      rw [hnone, append_nil]
      exact h.orderly s hs (.inl rfl)
    · have hnone : about s new = [] := by
        apply about_eq_nil
        intro entry hentry heq
        exact hold (heq ▸ h.bounded entry hentry)
      rw [hnone, nil_append] at hleft ⊢
      exact h'.orderly s (not_lt.mp hold) hleft

theorem Frame.entry {scope : Nat} {m : Moment} (hscope : scope < st.defers.length)
    (hm : m.body = none) (hown : own (scope, m)) (hdefers : st'.defers = st.defers) :
    Frame own ended st [(scope, m)] st' where
  grows := by rw [hdefers]
  kept s _ := by
    have hnone : registered (about s [(scope, m)]) = [] := by
      by_cases hs : scope = s
      · subst hs
        simp [registered, hm]
      · rw [about_other hs, registered_nil]
    rw [hnone, hdefers, append_nil]
  bounded entry hentry := by
    rw [mem_singleton.mp hentry, hdefers]
    exact hscope
  own entry hentry _ := by
    rw [mem_singleton.mp hentry]
    exact hown
  orderly s hs _ := by
    have hne : scope ≠ s := by omega
    exact .inl (about_other hne m)

/-- What happens in a new scope touches no old one, if the history of the new one is orderly. -/
theorem Frame.scoped (hopen : st₁.defers = st.defers ++ [[]])
    (h : Frame (fun entry => entry.1 = st.defers.length) ended st₁ new st')
    (horderly : ended = true ∨ isLeft (about st.defers.length new) →
      Orderly false (about st.defers.length new)) :
    Frame (fun _ => False) ended st new st' := by
  have hlen : st₁.defers.length = st.defers.length + 1 := by
    rw [hopen, length_append, length_singleton]
  have hlt : st.defers.length < st₁.defers.length := hlen ▸ Nat.lt_succ_self _
  refine ⟨hlt.le.trans h.grows, ?_, h.bounded, ?_, ?_⟩
  · intro s hs
    rw [h.kept s (hs.trans hlt), hopen, getD_append _ _ _ _ hs]
  · intro entry hentry hold
    exact absurd (h.own entry hentry (hold.trans hlt)) hold.ne
  · intro s hs hleft
    rcases hs.eq_or_lt with rfl | hs'
    · exact horderly hleft
    · exact h.orderly s (hlen ▸ hs') hleft

end Frame

/-! ## Kinds of computations -/

section Kinds

variable {ω α β : Type}

/-- What a computation adds to the log, in a run in which no call is made while a value waits. -/
def Steps (P : ExecState ω → List (Nat × Moment) → Option (Except ExecDiagnostic α) →
    ExecState ω → Prop) (x : Exec ω α) : Prop :=
  ∀ st, ∃ new, (x st).2.log = st.log ++ new ∧
    ((x st).2.late = false → st.late = false ∧ P st new (x st).1 (x st).2)

/-- An expression of a scope. It may let values wait, and does nothing else there. -/
def Evaluates (s : Nat) (x : Exec ω α) : Prop :=
  Steps (fun st new r st' => s < st.defers.length →
    Frame (fun entry => entry.1 = s ∧ ∃ v, entry.2 = .raised v) r.isSome st new st' ∧
    (r.isSome = true → st'.propagated = (raisedIn (about s new)).or st.propagated)) x

/-- A computation made in a scope while no value waits. If it ends, it has let none wait and
    touched no scope. -/
def Clears (s : Nat) (x : Exec ω α) : Prop :=
  Steps (fun st new r st' => s < st.defers.length → st.propagated = none →
    Frame (fun entry => r = none ∧ entry.1 = s ∧ ∃ v, entry.2 = .raised v) r.isSome st new st' ∧
    (r.isSome = true → st'.propagated = none)) x

/-- A computation made while no value waits. It lets none wait and touches no scope. -/
def Encloses (x : Exec ω α) : Prop :=
  Steps (fun st new r st' => st.propagated = none →
    Frame (fun _ => False) r.isSome st new st' ∧ (r.isSome = true → st'.propagated = none)) x

/-- A call. No value waits when it is made. -/
def Calls (x : Exec ω α) : Prop :=
  Steps (fun st new r st' => st.propagated = none ∧ Frame (fun _ => False) r.isSome st new st' ∧
    (r.isSome = true → st'.propagated = none)) x

/-- Statements of a scope. If an expression lets a value wait, they end by returning it. -/
def Executes (top : Bool) (s : Nat) (x : Exec ω KIRExecFlow) : Prop :=
  Steps (fun st new r st' => s < st.defers.length → st.propagated = none →
    Frame (fun entry => entry.1 = s ∧ entry.2.isOpening = true) r.isSome st new st' ∧
    (r.isSome = true → st'.propagated = none) ∧
    ∀ v, raisedIn (about s new) = some v → ∀ outcome, r = some outcome → Returns top v outcome) x

/-- A block executed in a scope that is its own. -/
def Blocks (top : Bool) (s : Nat) (x : Exec ω α) : Prop :=
  Steps (fun st new r st' => s < st.defers.length → st.propagated = none →
    st.defers.getD s [] = [] →
    Frame (fun entry => entry.1 = s) r.isSome st new st' ∧
    (r.isSome = true → st'.propagated = none) ∧
    (r.isSome = true ∨ isLeft (about s new) → Orderly top (about s new))) x

/-- A computation that touches neither the log nor the scopes nor a value that waits. -/
def Still (x : Exec ω α) : Prop :=
  ∀ st, (x st).2.log = st.log ∧ (x st).2.late = st.late ∧ (x st).2.defers = st.defers ∧
    (x st).2.propagated = st.propagated

theorem still_onData (f : ExecData ω → Except ExecDiagnostic α × ExecData ω) :
    Still (Exec.onData f) :=
  fun _ => ⟨rfl, rfl, rfl, rfl⟩

theorem still_done (r : Except ExecDiagnostic α) : Still (Exec.done r : Exec ω α) :=
  fun _ => ⟨rfl, rfl, rfl, rfl⟩

theorem still_stuck : Still (Exec.stuck : Exec ω α) :=
  fun _ => ⟨rfl, rfl, rfl, rfl⟩

variable {P : ExecState ω → List (Nat × Moment) → Option (Except ExecDiagnostic α) →
    ExecState ω → Prop}
  {Q : α → ExecState ω → List (Nat × Moment) → Option (Except ExecDiagnostic β) →
    ExecState ω → Prop}
  {R : ExecState ω → List (Nat × Moment) → Option (Except ExecDiagnostic β) →
    ExecState ω → Prop}
  {x : Exec ω α} {f : α → Exec ω β}

/-- A sequence of two computations. The second one is not made unless the first has a value. -/
theorem Steps.bind (hx : Steps P x) (hf : ∀ a, Steps (Q a) (f a))
    (hvalue : ∀ st new a st₁ new' r st', P st new (some (.ok a)) st₁ → Q a st₁ new' r st' →
      R st (new ++ new') r st')
    (hfailed : ∀ st new d st', P st new (some (.error d)) st' → R st new (some (.error d)) st')
    (hcut : ∀ st new st', P st new none st' → R st new none st') : Steps R (x >>= f) := by
  intro st
  obtain ⟨new, hlog, hp⟩ := hx st
  show ∃ new, (Exec.bind x f st).2.log = _ ∧ ((Exec.bind x f st).2.late = false → _ ∧
    R st new (Exec.bind x f st).1 (Exec.bind x f st).2)
  rw [Exec.bind]
  rcases hrun : x st with ⟨_ | d | a, st₁⟩
  · rw [hrun] at hlog hp
    exact ⟨new, hlog, fun hlate => ⟨(hp hlate).1, hcut _ _ _ (hp hlate).2⟩⟩
  · rw [hrun] at hlog hp
    exact ⟨new, hlog, fun hlate => ⟨(hp hlate).1, hfailed _ _ _ _ (hp hlate).2⟩⟩
  · rw [hrun] at hlog hp
    obtain ⟨new', hlog', hq⟩ := hf a st₁
    refine ⟨new ++ new', ?_, ?_⟩
    · rw [hlog', hlog, append_assoc]
    · intro hlate
      obtain ⟨hlate₁, hq⟩ := hq hlate
      exact ⟨(hp hlate₁).1, hvalue _ _ _ _ _ _ _ (hp hlate₁).2 hq⟩

theorem Still.bind (hx : Still x) (hf : ∀ a, Still (f a)) : Still (x >>= f) := by
  intro st
  show (Exec.bind x f st).2.log = _ ∧ (Exec.bind x f st).2.late = _ ∧
    (Exec.bind x f st).2.defers = _ ∧ (Exec.bind x f st).2.propagated = _
  have hfirst := hx st
  rw [Exec.bind]
  rcases hrun : x st with ⟨_ | d | a, st₁⟩
  · rwa [hrun] at hfirst
  · rwa [hrun] at hfirst
  · rw [hrun] at hfirst
    obtain ⟨hlog, hlate, hdefers, hpropagated⟩ := hf a st₁
    exact ⟨hlog.trans hfirst.1, hlate.trans hfirst.2.1, hdefers.trans hfirst.2.2.1,
      hpropagated.trans hfirst.2.2.2⟩

theorem Still.attempt (hx : Still x) : Still x.attempt :=
  hx

theorem Steps.mono {P' : ExecState ω → List (Nat × Moment) → Option (Except ExecDiagnostic α) →
    ExecState ω → Prop} (hx : Steps P x)
    (himp : ∀ st new r st', P st new r st' → P' st new r st') : Steps P' x := by
  intro st
  obtain ⟨new, hlog, hp⟩ := hx st
  exact ⟨new, hlog, fun hlate => ⟨(hp hlate).1, himp _ _ _ _ (hp hlate).2⟩⟩

theorem Steps.attempt {P' : ExecState ω → List (Nat × Moment) →
      Option (Except ExecDiagnostic (Except ExecDiagnostic α)) → ExecState ω → Prop}
    (hx : Steps P x) (himp : ∀ st new r st', P st new r st' → P' st new (r.map .ok) st') :
    Steps P' x.attempt := by
  intro st
  obtain ⟨new, hlog, hp⟩ := hx st
  exact ⟨new, hlog, fun hlate => ⟨(hp hlate).1, himp _ _ _ _ (hp hlate).2⟩⟩

theorem Still.steps (hx : Still x) (himp : ∀ st r st', st'.defers = st.defers →
    st'.propagated = st.propagated → P st [] r st') : Steps P x := by
  intro st
  obtain ⟨hlog, hlate, hdefers, hpropagated⟩ := hx st
  refine ⟨[], by rw [hlog, append_nil], fun h => ⟨hlate ▸ h, ?_⟩⟩
  exact himp _ _ _ hdefers hpropagated

/-! ### Expressions -/

section Evaluates

variable {s : Nat}

theorem Still.evaluates (hx : Still x) : Evaluates s x := by
  apply hx.steps
  intro st r st' hdefers hpropagated _
  exact ⟨.quiet hdefers, fun _ => by simp [hpropagated]⟩

theorem evaluates_pure (a : α) : Evaluates s (pure a : Exec ω α) :=
  (still_done (.ok a)).evaluates

theorem Evaluates.bind (hx : Evaluates s x) (hf : ∀ a, Evaluates s (f a)) :
    Evaluates s (x >>= f) := by
  apply Steps.bind hx hf
  · intro st new a st₁ new' r st' hfirst hthen hs
    obtain ⟨hframe, hwaits⟩ := hfirst hs
    obtain ⟨hframe', hwaits'⟩ := hthen (hs.trans_le hframe.grows)
    refine ⟨hframe.trans hframe' fun entry hown => hown.1 ▸ hs, ?_⟩
    intro hended
    rw [hwaits' hended, hwaits rfl, about_append, raisedIn_append, Option.or_assoc]
  · exact fun _ _ _ _ h => h
  · exact fun _ _ _ h => h

theorem Evaluates.attempt (hx : Evaluates s x) : Evaluates s x.attempt := by
  apply Steps.attempt hx
  intro st new r st' h hs
  rw [isSome_map]
  exact h hs

theorem evaluates_raise (v : Value) : Evaluates s (Exec.raise s v : Exec ω Unit) := by
  intro st
  refine ⟨[(s, .raised v)], rfl, fun hlate => ⟨hlate, fun hs => ⟨?_, fun _ => ?_⟩⟩⟩
  · exact .entry hs rfl ⟨rfl, v, rfl⟩ rfl
  · rw [about_single]
    rfl

theorem evaluates_openScope (parent : Option Nat) :
    Evaluates s (Exec.openScope parent : Exec ω Nat) := by
  intro st
  refine ⟨[], (append_nil _).symm, fun hlate => ⟨hlate, fun hs => ⟨?_, fun _ => rfl⟩⟩⟩
  refine ⟨?_, ?_, ?_, ?_, fun _ _ _ => .inl rfl⟩
  · simp [Exec.openScope]
  · intro i hi
    show (st.defers ++ [[]]).getD i [] = _
    rw [getD_append _ _ _ _ hi, about_nil, registered_nil, append_nil]
  all_goals
    intro entry hentry
    cases hentry

theorem Calls.evaluates (hx : Calls x) : Evaluates s x := by
  apply Steps.mono hx
  rintro st new r st' ⟨hbefore, hframe, hafter⟩ hs
  refine ⟨hframe.mono fun _ hno => hno.elim, fun hended => ?_⟩
  rw [hafter hended, hframe.about_old (fun _ hno => hno) hs, hbefore]
  rfl

theorem evaluates_all {xs : List (Exec ω α)} (hxs : ∀ x ∈ xs, Evaluates s x) :
    Evaluates s (Exec.all xs) := by
  induction xs with
  | nil => exact evaluates_pure _
  | cons x xs ih =>
    apply (hxs x mem_cons_self).bind
    intro a
    apply (ih fun y hy => hxs y (mem_cons_of_mem x hy)).bind
    intro as
    exact evaluates_pure _

end Evaluates

/-! ### Computations that touch no scope -/

section Clears

variable {s : Nat}

theorem Still.clears (hx : Still x) : Clears s x := by
  apply hx.steps
  intro st r st' hdefers hpropagated _ hnone
  exact ⟨.quiet hdefers, fun _ => hpropagated.trans hnone⟩

theorem clears_pure (a : α) : Clears s (pure a : Exec ω α) :=
  (still_done (.ok a)).clears

theorem Clears.bind (hx : Clears s x) (hf : ∀ a, Clears s (f a)) : Clears s (x >>= f) := by
  apply Steps.bind hx hf
  · intro st new a st₁ new' r st' hfirst hthen hs hnone
    obtain ⟨hframe, hafter⟩ := hfirst hs hnone
    obtain ⟨hframe', hafter'⟩ := hthen (hs.trans_le hframe.grows) (hafter rfl)
    refine ⟨?_, hafter'⟩
    apply Frame.trans (hframe.mono ?_) hframe'
    · exact fun entry hown => hown.2.1 ▸ hs
    · rintro entry ⟨hcut, -⟩
      cases hcut
  · rintro st new d st' hfirst hs hnone
    obtain ⟨hframe, hafter⟩ := hfirst hs hnone
    refine ⟨hframe.mono ?_, hafter⟩
    rintro entry ⟨hcut, -⟩
    cases hcut
  · intro st new st' hfirst hs hnone
    obtain ⟨hframe, hafter⟩ := hfirst hs hnone
    exact ⟨hframe.mono fun entry hown => ⟨rfl, hown.2⟩, hafter⟩

theorem Encloses.clears (hx : Encloses x) : Clears s x := by
  apply Steps.mono hx
  intro st new r st' h _ hnone
  exact ⟨(h hnone).1.mono fun _ hno => hno.elim, (h hnone).2⟩

theorem beforeCall_cut {st st' : ExecState ω} (h : x st = (none, st')) :
    x.beforeCall st = (none, st') := by
  show Exec.bind x.attempt _ st = _
  rw [Exec.bind, Exec.attempt, h]
  rfl

theorem beforeCall_ended {st st' : ExecState ω} {r : Except ExecDiagnostic α}
    (h : x st = (some r, st')) : x.beforeCall st =
      (some r, { st' with late := st'.late || st'.propagated.isSome }) := by
  show Exec.bind x.attempt _ st = _
  rw [Exec.bind, Exec.attempt, h]
  rfl

theorem Evaluates.beforeCall (hx : Evaluates s x) : Clears s x.beforeCall := by
  intro st
  obtain ⟨new, hlog, hp⟩ := hx st
  rcases hxs : x st with ⟨_ | r, st₁⟩
  · rw [hxs] at hlog hp
    rw [beforeCall_cut hxs]
    refine ⟨new, hlog, fun hlate => ⟨(hp hlate).1, fun hs _ => ?_⟩⟩
    obtain ⟨hframe, -⟩ := (hp hlate).2 hs
    exact ⟨hframe.mono fun entry hown => ⟨rfl, hown⟩, by simp⟩
  · rw [hxs] at hlog hp
    rw [beforeCall_ended hxs]
    refine ⟨new, hlog, fun hlate => ?_⟩
    obtain ⟨hlate, hnone₁⟩ := Bool.or_eq_false_iff.mp hlate
    obtain ⟨hbefore, h⟩ := hp hlate
    refine ⟨hbefore, fun hs hnone => ?_⟩
    obtain ⟨hframe, hwaits⟩ := h hs
    have hnone₁ : st₁.propagated = none := not_isSome_iff_eq_none.mp (by simp [hnone₁])
    refine ⟨⟨hframe.grows, hframe.kept, hframe.bounded, ?_, hframe.orderly⟩, fun _ => hnone₁⟩
    -- nothing is said about the scope itself
    intro entry hentry hold
    have hraised : ∀ m ∈ about s new, ∃ v, m = .raised v := fun m hm =>
      (hframe.own _ (mem_about.mp hm) hs).2
    have hnil : about s new = [] := by
      apply eq_nil_of_raisedIn hraised
      have heq := hwaits rfl
      rw [hnone, or_none] at heq
      rw [← heq]
      exact hnone₁
    obtain ⟨hentry_scope, -⟩ := hframe.own entry hentry hold
    have hmem : entry.2 ∈ about s new := mem_about.mpr (hentry_scope ▸ hentry)
    rw [hnil] at hmem
    cases hmem

end Clears

/-! ### Calls and blocks -/

theorem Still.encloses (hx : Still x) : Encloses x := by
  apply hx.steps
  intro st r st' hdefers hpropagated hnone
  exact ⟨.quiet hdefers, fun _ => hpropagated.trans hnone⟩

theorem Encloses.bind (hx : Encloses x) (hf : ∀ a, Encloses (f a)) : Encloses (x >>= f) := by
  apply Steps.bind hx hf
  · intro st new a st₁ new' r st' hfirst hthen hnone
    obtain ⟨hframe, hafter⟩ := hfirst hnone
    obtain ⟨hframe', hafter'⟩ := hthen (hafter rfl)
    exact ⟨hframe.trans hframe' fun _ hno => hno.elim, hafter'⟩
  · exact fun _ _ _ _ h => h
  · exact fun _ _ _ h => h

theorem Encloses.attempt (hx : Encloses x) : Encloses x.attempt := by
  apply Steps.attempt hx
  intro st new r st' h hnone
  rw [isSome_map]
  exact h hnone

theorem Calls.encloses (hx : Calls x) : Encloses x :=
  Steps.mono hx fun _ _ _ _ h _ => h.2

theorem Encloses.calls (hx : Encloses x) : Calls (Exec.noteCall >>= fun _ => x) := by
  intro st
  obtain ⟨new, hlog, hp⟩ := hx { st with late := st.late || st.propagated.isSome }
  refine ⟨new, hlog, fun hlate => ?_⟩
  obtain ⟨hbefore, h⟩ := hp hlate
  obtain ⟨hbefore, hsome⟩ := Bool.or_eq_false_iff.mp hbefore
  have hnone : st.propagated = none := not_isSome_iff_eq_none.mp (by simp [hsome])
  obtain ⟨hframe, hafter⟩ := h hnone
  exact ⟨hbefore, hnone, ⟨hframe.grows, hframe.kept, hframe.bounded, hframe.own, hframe.orderly⟩,
    hafter⟩

section Blocks

variable {s : Nat} {top : Bool}

theorem Frame.cleared {r : Option (Except ExecDiagnostic α)} {ended : Bool}
    {st st' : ExecState ω} {new : List (Nat × Moment)}
    (hframe : Frame (fun entry => r = none ∧ entry.1 = s ∧ ∃ v, entry.2 = .raised v) ended st new
      st')
    (hs : s < st.defers.length) (h : r.isSome = true ∨ isLeft (about s new)) :
    about s new = [] := by
  rcases h with hended | ⟨result, hresult⟩
  · apply hframe.about_old _ hs
    rintro _ ⟨rfl, -⟩
    cases hended
  · obtain ⟨-, -, v, hv⟩ := hframe.own _ (mem_about.mp hresult) hs
    cases hv

theorem Clears.blocks (hx : Clears s x) : Blocks top s x := by
  apply Steps.mono hx
  intro st new r st' h hs hnone _
  obtain ⟨hframe, hafter⟩ := h hs hnone
  exact ⟨hframe.mono fun _ hown => hown.2.1, hafter, fun hleft => .inl (hframe.cleared hs hleft)⟩

theorem Clears.thenBlocks (hx : Clears s x) (hf : ∀ a, Blocks top s (f a)) :
    Blocks top s (x >>= f) := by
  apply Steps.bind hx hf
  · intro st new a st₁ new' r st' hfirst hthen hs hnone hempty
    obtain ⟨hframe, hafter⟩ := hfirst hs hnone
    have hnil : about s new = [] := hframe.cleared hs (.inl rfl)
    have hempty₁ : st₁.defers.getD s [] = [] := by
      rw [hframe.kept s hs, hempty, hnil]
      rfl
    obtain ⟨hframe', hafter', horderly⟩ :=
      hthen (hs.trans_le hframe.grows) (hafter rfl) hempty₁
    refine ⟨?_, hafter', ?_⟩
    · apply Frame.trans (hframe.mono fun _ hown => hown.2.1) hframe'
      exact fun entry hown => hown ▸ hs
    · rwa [about_append, hnil]
  · intro st new d st' hfirst hs hnone hempty
    obtain ⟨hframe, hafter⟩ := hfirst hs hnone
    exact ⟨hframe.mono fun _ hown => hown.2.1, hafter,
      fun _ => .inl (hframe.cleared hs (.inl rfl))⟩
  · intro st new st' hfirst hs hnone hempty
    obtain ⟨hframe, hafter⟩ := hfirst hs hnone
    refine ⟨hframe.mono fun _ hown => hown.2.1, hafter, fun hleft => ?_⟩
    exact .inl (hframe.cleared hs (hleft.imp_left fun hended => by cases hended))

theorem Blocks.thenStill (hx : Blocks top s x) (hf : ∀ a, Still (f a)) :
    Blocks top s (x >>= f) := by
  have hstill : ∀ a, Steps (fun st new _ st' => new = [] ∧ st'.defers = st.defers ∧
      st'.propagated = st.propagated) (f a) := fun a =>
    (hf a).steps fun _ _ _ hdefers hpropagated => ⟨rfl, hdefers, hpropagated⟩
  apply Steps.bind hx hstill
  · rintro st new a st₁ _ r st' hfirst ⟨rfl, hdefers, hpropagated⟩ hs hnone hempty
    obtain ⟨hframe, hafter, horderly⟩ := hfirst hs hnone hempty
    rw [append_nil]
    refine ⟨?_, fun _ => hpropagated.trans (hafter rfl), fun _ => horderly (.inl rfl)⟩
    refine Frame.congr ⟨hframe.grows, hframe.kept, hframe.bounded, hframe.own, ?_⟩ hdefers
    exact fun i hi _ => hframe.orderly i hi (.inl rfl)
  · exact fun _ _ _ _ h => h
  · exact fun _ _ _ h => h

theorem Blocks.attempt (hx : Blocks top s x) : Blocks top s x.attempt := by
  apply Steps.attempt hx
  intro st new r st' h hs hnone hempty
  rw [isSome_map]
  exact h hs hnone hempty

theorem encloses_openScope {parent : Option Nat} {block : Nat → Exec ω α}
    (hblock : ∀ inner, Blocks false inner (block inner)) :
    Encloses (Exec.openScope parent >>= block) := by
  intro st
  obtain ⟨new, hlog, hp⟩ := hblock st.defers.length (Exec.openScope parent st).2
  refine ⟨new, hlog, fun hlate => ⟨(hp hlate).1, fun hnone => ?_⟩⟩
  have hopen : (Exec.openScope parent st).2.defers = st.defers ++ [[]] := rfl
  have hlt : st.defers.length < (Exec.openScope parent st).2.defers.length := by
    rw [hopen, length_append]
    exact Nat.lt_succ_self _
  have hempty : (Exec.openScope parent st).2.defers.getD st.defers.length [] = [] := by
    rw [hopen, getD_append_right _ _ _ _ le_rfl, Nat.sub_self]
    rfl
  obtain ⟨hframe, hafter, horderly⟩ := (hp hlate).2 hlt hnone hempty
  exact ⟨.scoped hopen hframe horderly, hafter⟩

end Blocks

/-! ### Statements -/

section Executes

variable {s : Nat} {top : Bool} {x : Exec ω KIRExecFlow}

theorem Clears.executes (hx : Clears s x) : Executes top s x := by
  apply Steps.mono hx
  intro st new r st' h hs hnone
  obtain ⟨hframe, hafter⟩ := h hs hnone
  refine ⟨hframe.mono ?_, hafter, ?_⟩
  · rintro ⟨i, m⟩ ⟨-, hscope, v, hv⟩
    exact ⟨hscope, by rw [hv]; rfl⟩
  · rintro v hv outcome rfl
    rw [hframe.cleared hs (.inl rfl)] at hv
    cases hv

theorem executes_pure (flow : KIRExecFlow) : Executes top s (pure flow : Exec ω KIRExecFlow) :=
  (clears_pure flow).executes

theorem Clears.thenExecutes {x : Exec ω α} {f : α → Exec ω KIRExecFlow} (hx : Clears s x)
    (hf : ∀ a, Executes top s (f a)) : Executes top s (x >>= f) := by
  apply Steps.bind hx hf
  · intro st new a st₁ new' r st' hfirst hthen hs hnone
    obtain ⟨hframe, hafter⟩ := hfirst hs hnone
    obtain ⟨hframe', hafter', hreturns⟩ := hthen (hs.trans_le hframe.grows) (hafter rfl)
    refine ⟨?_, hafter', ?_⟩
    · apply Frame.trans (hframe.mono ?_) hframe'
      · exact fun entry hown => hown.1 ▸ hs
      · rintro entry ⟨hcut, -⟩
        cases hcut
    · rwa [about_append, hframe.cleared hs (.inl rfl)]
  · intro st new d st' hfirst hs hnone
    obtain ⟨hframe, hafter⟩ := hfirst hs hnone
    refine ⟨hframe.mono ?_, hafter, ?_⟩
    · rintro entry ⟨hcut, -⟩
      cases hcut
    · intro v hv
      rw [hframe.cleared hs (.inl rfl)] at hv
      cases hv
  · intro st new st' hfirst hs hnone
    obtain ⟨hframe, hafter⟩ := hfirst hs hnone
    refine ⟨hframe.mono ?_, hafter, ?_⟩
    · rintro ⟨i, m⟩ ⟨-, hscope, v, hv⟩
      exact ⟨hscope, by rw [hv]; rfl⟩
    · intro v hv outcome houtcome
      cases houtcome

/-! A value that waits ends the statement, and otherwise the statement goes on. -/

section OrReturn

variable {x : Exec ω Value} {next : Value → Exec ω KIRExecFlow} {st st' : ExecState ω}

theorem orReturn_cut (h : x st = (none, st')) : x.orReturn next st = (none, st') := by
  show Exec.bind x.attempt _ st = _
  rw [Exec.bind, Exec.attempt, h]
  rfl

variable {r : Except ExecDiagnostic Value}

theorem orReturn_waits {v : Value} (h : x st = (some r, st')) (hv : st'.propagated = some v) :
    x.orReturn next st = (some (.ok (.returned v)), { st' with propagated := none }) := by
  show Exec.bind x.attempt _ st = _
  rw [Exec.bind, Exec.attempt, h]
  show Exec.bind Exec.takePropagated _ st' = _
  rw [Exec.bind, Exec.takePropagated, hv]
  rfl

theorem orReturn_goesOn (h : x st = (some r, st')) (hnone : st'.propagated = none) :
    x.orReturn next st = (Exec.done r >>= next) st' := by
  have hst' : { st' with propagated := none } = st' := by
    cases st'
    cases hnone
    rfl
  show Exec.bind x.attempt _ st = _
  rw [Exec.bind, Exec.attempt, h]
  show Exec.bind Exec.takePropagated _ st' = _
  rw [Exec.bind, Exec.takePropagated, hnone]
  rw [hst']

theorem Evaluates.orReturn (hx : Evaluates s x) (hnext : ∀ v, Executes false s (next v)) :
    Executes false s (x.orReturn next) := by
  have hopens : ∀ entry : Nat × Moment, (entry.1 = s ∧ ∃ v, entry.2 = .raised v) →
      entry.1 = s ∧ entry.2.isOpening = true := by
    rintro ⟨i, m⟩ ⟨hscope, v, hv⟩
    exact ⟨hscope, by rw [hv]; rfl⟩
  intro st
  obtain ⟨new, hlog, hp⟩ := hx st
  rcases hrun : x st with ⟨_ | r, st₁⟩
  · rw [hrun] at hlog hp
    rw [orReturn_cut hrun]
    refine ⟨new, hlog, fun hlate => ⟨(hp hlate).1, fun hs _ => ?_⟩⟩
    exact ⟨((hp hlate).2 hs).1.mono hopens, by simp, by simp⟩
  · rw [hrun] at hlog hp
    cases hwaits : st₁.propagated with
    | some v =>
      rw [orReturn_waits hrun hwaits]
      refine ⟨new, hlog, fun hlate => ⟨(hp hlate).1, fun hs hnone => ?_⟩⟩
      obtain ⟨hframe, heq⟩ := (hp hlate).2 hs
      refine ⟨(hframe.mono hopens).congr rfl, fun _ => rfl, ?_⟩
      intro w hw outcome houtcome
      have hlast := heq rfl
      rw [hwaits, hnone, or_none, hw] at hlast
      cases hlast
      cases houtcome
      exact .inl rfl
    | none =>
      rw [orReturn_goesOn hrun hwaits]
      have hthen : Executes false s (Exec.done r >>= next) :=
        (still_done r).clears.thenExecutes hnext
      obtain ⟨new', hlog', hp'⟩ := hthen st₁
      refine ⟨new ++ new', by rw [hlog', hlog, append_assoc], fun hlate' => ?_⟩
      obtain ⟨hlate, h'⟩ := hp' hlate'
      refine ⟨(hp hlate).1, fun hs hnone => ?_⟩
      obtain ⟨hframe, heq⟩ := (hp hlate).2 hs
      obtain ⟨hframe', hafter', hreturns⟩ := h' (hs.trans_le hframe.grows) hwaits
      refine ⟨(hframe.mono hopens).trans hframe' fun entry hown => hown.1 ▸ hs, hafter', ?_⟩
      have hraised : raisedIn (about s new) = none := by
        have hlast := heq rfl
        rw [hwaits, hnone, or_none] at hlast
        exact hlast.symm
      rwa [about_append, raisedIn_append, hraised, or_none]

end OrReturn

theorem executes_addDeferred (body : List ExecStmt) :
    Executes top s (Exec.addDeferred s body >>= fun _ => pure (.normal .nil) :
      Exec ω KIRExecFlow) := by
  intro st
  refine ⟨[(s, .deferred body)], rfl, fun hlate => ⟨hlate, fun hs hnone => ?_⟩⟩
  refine ⟨⟨?_, ?_, ?_, ?_, ?_⟩, fun _ => hnone, ?_⟩
  · exact (length_modify _ _ _).ge
  · intro i hi
    show (st.defers.modify s (· ++ [body])).getD i [] = _
    rw [getD_eq_getElem?_getD, getElem?_modify, getD_eq_getElem?_getD,
      getElem?_eq_getElem hi]
    by_cases his : s = i
    · subst his
      simp [registered, Moment.body]
    · rw [about_other his]
      simp [his]
  · intro entry hentry
    rw [mem_singleton.mp hentry]
    exact hs.trans_eq (length_modify _ _ _).symm
  · intro entry hentry _
    rw [mem_singleton.mp hentry]
    exact ⟨rfl, rfl⟩
  · intro i hi _
    have hne : s ≠ i := by omega
    exact .inl (about_other hne _)
  · intro v hv
    rw [about_single] at hv
    cases hv

variable {settle : KIRExecFlow → Exec ω Unit}

theorem settled_outcome (hpure : top = false → ∀ flow, settle flow = pure ()) (flow : KIRExecFlow)
    (st : ExecState ω) (outcome : Except ExecDiagnostic KIRExecFlow)
    (h : ((settle flow >>= fun _ => pure flow) st).1 = some outcome) :
    outcome = .ok flow ∨ top = true ∧ (failureOf outcome).isSome = true := by
  change (Exec.bind (settle flow) _ st).1 = _ at h
  rw [Exec.bind] at h
  rcases hrun : settle flow st with ⟨_ | d | u, st₁⟩
  · rw [hrun] at h
    cases h
  · rw [hrun] at h
    cases h
    cases top with
    | true => exact .inr ⟨rfl, rfl⟩
    | false =>
      rw [hpure rfl flow] at hrun
      cases hrun
  · rw [hrun] at h
    cases h
    exact .inl rfl

theorem Executes.settled (hx : Executes false s x) (hsettle : ∀ flow, Still (settle flow))
    (hpure : top = false → ∀ flow, settle flow = pure ()) :
    Executes top s (x >>= fun flow => settle flow >>= fun _ => pure flow) := by
  have hstill : ∀ flow, Steps (fun st new r st' => (new = [] ∧ st'.defers = st.defers ∧
      st'.propagated = st.propagated) ∧ ∀ outcome, r = some outcome →
        outcome = .ok flow ∨ top = true ∧ (failureOf outcome).isSome = true)
      (settle flow >>= fun _ => pure flow) := by
    intro flow st
    obtain ⟨hlog, hlate, hdefers, hpropagated⟩ :=
      (hsettle flow).bind (fun _ => still_done (.ok flow)) st
    refine ⟨[], hlog.trans (append_nil _).symm, fun h => ⟨hlate.symm.trans h, ?_⟩⟩
    exact ⟨⟨rfl, hdefers, hpropagated⟩, settled_outcome hpure flow st⟩
  apply Steps.bind hx hstill
  · rintro st new a st₁ _ r st' hfirst ⟨⟨rfl, hdefers, hpropagated⟩, houtcome⟩ hs hnone
    obtain ⟨hframe, hafter, hreturns⟩ := hfirst hs hnone
    rw [append_nil]
    refine ⟨?_, fun _ => hpropagated.trans (hafter rfl), fun v hv outcome heq => ?_⟩
    · refine Frame.congr ⟨hframe.grows, hframe.kept, hframe.bounded, hframe.own, ?_⟩ hdefers
      exact fun i hi _ => hframe.orderly i hi (.inl rfl)
    · rcases hreturns v hv _ rfl with hreturned | ⟨hfalse, -⟩
      · cases hreturned
        exact houtcome outcome heq
      · cases hfalse
  · intro st new d st' h hs hnone
    obtain ⟨hframe, hafter, hreturns⟩ := h hs hnone
    refine ⟨hframe, hafter, fun v hv outcome heq => ?_⟩
    cases heq
    rcases hreturns v hv _ rfl with hreturned | ⟨hfalse, -⟩
    · cases hreturned
    · cases hfalse
  · intro st new st' h hs hnone
    obtain ⟨hframe, hafter, hreturns⟩ := h hs hnone
    exact ⟨hframe, hafter, fun v hv outcome heq => by cases heq⟩

theorem Executes.seq (hx : Executes top s x) {rest : Value → Exec ω KIRExecFlow}
    {next : KIRExecFlow → Exec ω KIRExecFlow} (hrest : ∀ v, Executes top s (rest v))
    (hnormal : ∀ v, next (.normal v) = rest v)
    (hleave : ∀ flow, (∀ v, flow ≠ .normal v) → next flow = pure flow) :
    Executes top s (x >>= next) := by
  have hthen : ∀ flow, Steps (fun st new r st' =>
      (∃ v, flow = .normal v ∧ (s < st.defers.length → st.propagated = none →
        Frame (fun entry => entry.1 = s ∧ entry.2.isOpening = true) r.isSome st new st' ∧
        (r.isSome = true → st'.propagated = none) ∧ ∀ v, raisedIn (about s new) = some v →
          ∀ outcome, r = some outcome → Returns top v outcome)) ∨
      (new = [] ∧ r = some (.ok flow) ∧ st' = st)) (next flow) := by
    intro flow
    by_cases hflow : ∃ v, flow = .normal v
    · obtain ⟨v, rfl⟩ := hflow
      rw [hnormal v]
      exact Steps.mono (hrest v) fun st new r st' h => .inl ⟨v, rfl, h⟩
    · rw [hleave flow fun v hv => hflow ⟨v, hv⟩]
      exact fun st => ⟨[], (append_nil _).symm, fun hlate => ⟨hlate, .inr ⟨rfl, rfl, rfl⟩⟩⟩
  apply Steps.bind hx hthen
  · rintro st new flow st₁ new' r st' hfirst hthen hs hnone
    obtain ⟨hframe, hafter, hreturns⟩ := hfirst hs hnone
    rcases hthen with ⟨v, rfl, hthen⟩ | ⟨rfl, rfl, rfl⟩
    · obtain ⟨hframe', hafter', hreturns'⟩ := hthen (hs.trans_le hframe.grows) (hafter rfl)
      refine ⟨hframe.trans hframe' fun entry hown => hown.1 ▸ hs, hafter', ?_⟩
      -- nothing was to be returned after a statement that ended normally
      have hraised : raisedIn (about s new) = none := by
        rw [eq_none_iff_forall_ne_some]
        intro w hw
        rcases hreturns w hw _ rfl with hreturned | ⟨-, hfailed⟩
        · cases hreturned
        · cases hfailed
      rwa [about_append, raisedIn_append, hraised, or_none]
    · rw [append_nil]
      exact ⟨hframe, hafter, hreturns⟩
  · intro st new d st' h
    exact h
  · intro st new st' h hs hnone
    obtain ⟨hframe, hafter, -⟩ := h hs hnone
    exact ⟨hframe, hafter, fun v hv outcome heq => by cases heq⟩

end Executes

end Kinds

end Kryndel.KIRExec
