import Kryndel.Kir.Deferred

/-!
# What runs keep of scopes

Expressions, calls and blocks may fail at any point. Whatever they do, the scopes that were there
keep their bindings, only a block adds some to its own scope, and no binding that is immutable
gets another value. A run that ends has left the frames of all calls that it made.
-/

namespace Kryndel.KIRExec

open List

variable {ω : Type}

/-! ## Scopes, cells and frames -/

/-- A scope binds a cell, by a binding that can be assigned or by one that cannot. -/
def Binds (data : ExecData ω) (mutable : Bool) (cell : Nat) : Prop :=
  ∃ scope ∈ data.scopes, ∃ binding, (binding, cell) ∈ scope.values ∧ binding.mutable = mutable

/-- Bound cells are there, and none is bound both ways. -/
structure Consistent (st : ExecState ω) : Prop where
  numbered : st.defers.length = st.data.scopes.length
  bounded : ∀ mutable cell, Binds st.data mutable cell → cell < st.data.cells.length
  agreed : ∀ cell, Binds st.data true cell → ¬ Binds st.data false cell

/-- Scopes keep what they bind, and only one of them may bind more. Closures stay, and immutable
    bindings have their values. -/
structure Keeps (own : Option Nat) (data data' : ExecData ω) : Prop where
  scopes : ∀ (s : Nat) scope, data.scopes[s]? = some scope → ∃ more,
    data'.scopes[s]? = some { scope with values := scope.values ++ more } ∧
      (own ≠ some s → more = [])
  closures : data.closures <+: data'.closures
  fixed : ∀ cell, Binds data false cell → data'.cells[cell]? = data.cells[cell]?

/-- The frames of calls are as they were, and those of type arguments too if they are counted. -/
structure Restored (framed : Bool) (data data' : ExecData ω) : Prop where
  calls : data'.calls = data.calls
  returnTypes : data'.returnTypes = data.returnTypes
  typeArgs : framed = true → data'.typeArgs = data.typeArgs

section Relations

variable {own : Option Nat} {framed : Bool} {data data' data'' : ExecData ω}

theorem Keeps.refl (own : Option Nat) (data : ExecData ω) : Keeps own data data where
  scopes s scope hscope := ⟨[], by rw [hscope, append_nil], fun _ => rfl⟩
  closures := prefix_rfl
  fixed _ _ := rfl

theorem Binds.keep {mutable : Bool} {cell : Nat} (h : Binds data mutable cell)
    (hkeeps : Keeps own data data') : Binds data' mutable cell := by
  obtain ⟨scope, hscope, binding, hentry, hmutable⟩ := h
  obtain ⟨s, hs⟩ := mem_iff_getElem?.mp hscope
  obtain ⟨more, hs', -⟩ := hkeeps.scopes s scope hs
  exact ⟨_, mem_of_getElem? hs', binding, mem_append_left _ hentry, hmutable⟩

theorem Keeps.trans (h : Keeps own data data') (h' : Keeps own data' data'') :
    Keeps own data data'' where
  scopes s scope hscope := by
    obtain ⟨more, hs, hmore⟩ := h.scopes s scope hscope
    obtain ⟨more', hs', hmore'⟩ := h'.scopes s _ hs
    refine ⟨more ++ more', ?_, fun hown => ?_⟩
    · rw [hs', append_assoc]
    · rw [hmore hown, hmore' hown, append_nil]
  closures := h.closures.trans h'.closures
  fixed cell hcell := (h'.fixed cell (hcell.keep h)).trans (h.fixed cell hcell)

theorem Restored.trans (h : Restored framed data data') (h' : Restored framed data' data'') :
    Restored framed data data'' :=
  ⟨h'.calls.trans h.calls, h'.returnTypes.trans h.returnTypes,
    fun hframed => (h'.typeArgs hframed).trans (h.typeArgs hframed)⟩

/-- What a computation does to the data, apart from the frames, is nothing. -/
def OnlyFrames (f : ExecData ω → ExecData ω) : Prop :=
  ∀ data, (f data).scopes = data.scopes ∧ (f data).cells = data.cells ∧
    (f data).closures = data.closures

end Relations

theorem Consistent.congr {st st' : ExecState ω} (h : Consistent st)
    (hscopes : st'.data.scopes = st.data.scopes) (hcells : st'.data.cells = st.data.cells)
    (hdefers : st'.defers.length = st.defers.length) : Consistent st' := by
  have hbinds : ∀ mutable cell, Binds st'.data mutable cell → Binds st.data mutable cell := by
    intro mutable cell hbinds
    rwa [Binds, hscopes] at hbinds
  refine ⟨by rw [hdefers, hscopes, h.numbered], fun mutable cell hcell => ?_, fun cell hm hi => ?_⟩
  · rw [hcells]
    exact h.bounded mutable cell (hbinds mutable cell hcell)
  · exact h.agreed cell (hbinds true cell hm) (hbinds false cell hi)

theorem Keeps.congr (own : Option Nat) {data data' : ExecData ω}
    (hscopes : data'.scopes = data.scopes) (hcells : data'.cells = data.cells)
    (hclosures : data'.closures = data.closures) : Keeps own data data' where
  scopes s scope hscope := ⟨[], by rw [hscopes, hscope, append_nil], fun _ => rfl⟩
  closures := hclosures ▸ prefix_rfl
  fixed cell _ := by rw [hcells]

/-! ## Computations -/

section Rules

variable {α β : Type} {own : Option Nat} {framed : Bool} {st : ExecState ω}

/-- What a computation keeps when it is started in a state. If it is cut off, it may leave frames
    behind. -/
def LeavesAt (framed : Bool) (own : Option Nat) (x : Exec ω α) (st : ExecState ω) : Prop :=
  Consistent st → Consistent (x st).2 ∧ Keeps own st.data (x st).2.data ∧
    ((x st).1.isSome = true → Restored framed st.data (x st).2.data)

def Leaves (framed : Bool) (own : Option Nat) (x : Exec ω α) : Prop :=
  ∀ st, LeavesAt framed own x st

variable {x : Exec ω α} {k : α → Exec ω β}

theorem LeavesAt.bind (hx : LeavesAt framed own x st)
    (hk : ∀ a st', Keeps own st.data st'.data → LeavesAt framed own (k a) st') :
    LeavesAt framed own (x >>= k) st := by
  intro consistent
  obtain ⟨consistent', hkeeps, hframes⟩ := hx consistent
  show Consistent (Exec.bind x k st).2 ∧ Keeps own st.data (Exec.bind x k st).2.data ∧
    ((Exec.bind x k st).1.isSome = true → Restored framed st.data (Exec.bind x k st).2.data)
  rw [Exec.bind]
  rcases hrun : x st with ⟨_ | _ | a, st'⟩
  · rw [hrun] at consistent' hkeeps
    exact ⟨consistent', hkeeps, fun h => by cases h⟩
  · rw [hrun] at consistent' hkeeps hframes
    exact ⟨consistent', hkeeps, hframes⟩
  · rw [hrun] at consistent' hkeeps hframes
    obtain ⟨consistent'', hkeeps', hframes'⟩ := hk a st' hkeeps consistent'
    exact ⟨consistent'', hkeeps.trans hkeeps', fun h => (hframes rfl).trans (hframes' h)⟩

theorem Leaves.bind (hx : Leaves framed own x) (hk : ∀ a, Leaves framed own (k a)) :
    Leaves framed own (x >>= k) :=
  fun st => (hx st).bind fun a st' _ => hk a st'

theorem Leaves.attempt (hx : Leaves framed own x) : Leaves framed own x.attempt := by
  intro st consistent
  obtain ⟨consistent', hkeeps, hframes⟩ := hx st consistent
  exact ⟨consistent', hkeeps, fun h => hframes (by simpa [Exec.attempt] using h)⟩

theorem Leaves.unframed (hx : Leaves true own x) : Leaves false own x := by
  intro st consistent
  obtain ⟨consistent', hkeeps, hframes⟩ := hx st consistent
  exact ⟨consistent', hkeeps, fun h => ⟨(hframes h).calls, (hframes h).returnTypes, by simp⟩⟩

/-- A computation that changes the world of the host at most, beside scopes and frames. -/
theorem leaves_quiet
    (hquiet : ∀ st, (x st).2.data = { st.data with world := (x st).2.data.world } ∧
      (x st).2.defers.length = st.defers.length) : Leaves framed own x := by
  intro st consistent
  obtain ⟨hdata, hdefers⟩ := hquiet st
  rw [hdata]
  refine ⟨consistent.congr ?_ ?_ hdefers, .congr own rfl rfl rfl, fun _ => ⟨rfl, rfl, fun _ => rfl⟩⟩
  · rw [hdata]
  · rw [hdata]

/-- What is done in a new scope is done beside the old ones. -/
theorem leaves_openScope {parent : Option Nat} {k : Nat → Exec ω β}
    (hk : ∀ inner, Leaves framed (some inner) (k inner)) :
    Leaves framed own (Exec.openScope parent >>= k) := by
  intro st consistent
  obtain ⟨outer, hopen⟩ : ∃ outer, (Exec.openScope parent >>= k) st = k st.defers.length
      { st with
        data := { st.data with scopes := st.data.scopes ++ [{ outer }] }
        defers := st.defers ++ [[]] } := ⟨_, rfl⟩
  rw [hopen]
  have hbinds : ∀ mutable cell, Binds { st.data with scopes := st.data.scopes ++ [{ outer }] }
      mutable cell → Binds st.data mutable cell := by
    rintro mutable cell ⟨scope, hscope, binding, hentry, hmutable⟩
    rcases mem_append.mp hscope with hold | hnew
    · exact ⟨scope, hold, binding, hentry, hmutable⟩
    · rw [mem_singleton.mp hnew] at hentry
      cases hentry
  obtain ⟨consistent', hkeeps, hframes⟩ := hk st.defers.length
    { st with
      data := { st.data with scopes := st.data.scopes ++ [{ outer }] }
      defers := st.defers ++ [[]] } ⟨by simp [consistent.numbered],
    fun m cell hcell => consistent.bounded m cell (hbinds m cell hcell),
    fun cell hm hi => consistent.agreed cell (hbinds true cell hm) (hbinds false cell hi)⟩
  refine ⟨consistent', ⟨fun s scope hscope => ?_, hkeeps.closures, fun cell hcell => ?_⟩,
    fun h => ⟨(hframes h).calls, (hframes h).returnTypes, (hframes h).typeArgs⟩⟩
  · have hs : s < st.data.scopes.length := (List.getElem?_eq_some_iff.mp hscope).1
    obtain ⟨more, hs', hmore⟩ := hkeeps.scopes s scope
      (by rw [getElem?_append_left hs, hscope])
    have hne : some st.defers.length ≠ some s := by
      rw [consistent.numbered]
      exact fun h => absurd (Option.some.inj h) (by omega)
    exact ⟨more, hs', fun _ => hmore hne⟩
  · obtain ⟨scope, hscope, h⟩ := hcell
    exact hkeeps.fixed cell ⟨scope, mem_append_left _ hscope, h⟩

/-- A cell that is new, or that such bindings bind already, is bound in a scope. -/
theorem bindCell_keeps {s cell : Nat} {binding : KIRBinding} {values : List Value}
    (consistent : Consistent st) (hcell : cell < (st.data.cells ++ values).length)
    (hsame : ∀ mutable, Binds st.data mutable cell → mutable = binding.mutable) :
    Consistent { st with data :=
        { bindCell st.data s binding cell with cells := st.data.cells ++ values } } ∧
      Keeps (some s) st.data
        { bindCell st.data s binding cell with cells := st.data.cells ++ values } := by
  have hscopes : ∀ (i : Nat) scope, st.data.scopes[i]? = some scope → ∃ more,
      (bindCell st.data s binding cell).scopes[i]? =
        some { scope with values := scope.values ++ more } ∧ (some s ≠ some i → more = []) := by
    intro i scope hscope
    by_cases hi : s = i
    · subst hi
      exact ⟨[(binding, cell)], by simp [bindCell, hscope], by simp⟩
    · exact ⟨[], by simp [bindCell, getElem?_modify_ne _ _ hi, hscope], fun _ => rfl⟩
  have hbinds : ∀ mutable c, Binds { bindCell st.data s binding cell with
      cells := st.data.cells ++ values } mutable c →
      Binds st.data mutable c ∨ c = cell ∧ mutable = binding.mutable := by
    rintro mutable c ⟨scope, hscope, b, hentry, rfl⟩
    obtain ⟨i, hi⟩ := mem_iff_getElem?.mp hscope
    obtain ⟨scope', hscope', rfl⟩ : ∃ scope', st.data.scopes[i]? = some scope' ∧
        scope = if s = i then { scope' with values := scope'.values ++ [(binding, cell)] }
          else scope' := by
      simp only [bindCell, getElem?_modify, Option.map_eq_map, Option.map_eq_some_iff] at hi
      obtain ⟨scope', hscope', heq⟩ := hi
      exact ⟨scope', hscope', heq.symm⟩
    split at hentry
    · rcases mem_append.mp hentry with hold | hnew
      · exact .inl ⟨scope', mem_of_getElem? hscope', b, hold, rfl⟩
      · cases mem_singleton.mp hnew
        exact .inr ⟨rfl, rfl⟩
    · exact .inl ⟨scope', mem_of_getElem? hscope', b, hentry, rfl⟩
  refine ⟨⟨?_, fun m c hc => ?_, fun c hm hi => ?_⟩, hscopes, prefix_rfl, fun c hc => ?_⟩
  · simp [bindCell, consistent.numbered]
  · rcases hbinds m c hc with hold | ⟨rfl, -⟩
    · exact (consistent.bounded m c hold).trans_le (by simp)
    · exact hcell
  · rcases hbinds true c hm with hold | ⟨rfl, hnew⟩
    · rcases hbinds false c hi with hold' | ⟨rfl, hnew'⟩
      · exact consistent.agreed c hold hold'
      · cases (hsame true hold).trans hnew'.symm
    · rcases hbinds false c hi with hold' | ⟨-, hnew'⟩
      · cases (hsame false hold').trans hnew.symm
      · cases hnew.trans hnew'.symm
  · exact getElem?_append_left (consistent.bounded false c hc)

/-- Frames may be changed around a computation. -/
theorem LeavesAt.bracket {framed' : Bool} {f g : ExecData ω → ExecData ω}
    {after : Except ExecDiagnostic α → Exec ω β} (hx : Leaves framed own x) (hf : OnlyFrames f)
    (hg : OnlyFrames g)
    (hback : ∀ data, Restored framed (f st.data) data → Restored framed' st.data (g data))
    (hafter : ∀ r, Leaves framed' own (after r)) :
    LeavesAt framed' own (do
      Exec.changing f
      let r ← x.attempt
      Exec.changing g
      after r) st := by
  intro consistent
  obtain ⟨hscopes, hcells, hclosures⟩ := hf st.data
  obtain ⟨consistent', hkeeps, hframes⟩ := hx { st with data := f st.data }
    (consistent.congr hscopes hcells rfl)
  have hkeeps := (Keeps.congr own hscopes hcells hclosures).trans hkeeps
  have hwhole : (do
      Exec.changing f
      let r ← x.attempt
      Exec.changing g
      after r : Exec ω β) st = match x { st with data := f st.data } with
        | (none, st') => (none, st')
        | (some r, st') => after r { st' with data := g st'.data } := by
    show Exec.bind (Exec.changing f) (fun _ => Exec.bind x.attempt fun r =>
      Exec.bind (Exec.changing g) fun _ => after r) st = _
    simp only [Exec.bind, Exec.changing, Exec.onData, Exec.attempt]
    rcases x { st with data := f st.data } with ⟨_ | r, st'⟩ <;> rfl
  rw [hwhole]
  rcases hrun : x { st with data := f st.data } with ⟨_ | r, st'⟩
  · rw [hrun] at consistent' hkeeps
    exact ⟨consistent', hkeeps, fun h => by cases h⟩
  · rw [hrun] at consistent' hkeeps hframes
    obtain ⟨hscopes', hcells', hclosures'⟩ := hg st'.data
    obtain ⟨consistent'', hkeeps', hframes'⟩ := hafter r { st' with data := g st'.data }
      (consistent'.congr hscopes' hcells' rfl)
    exact ⟨consistent'', (hkeeps.trans (.congr own hscopes' hcells' hclosures')).trans hkeeps',
      fun h => (hback _ (hframes rfl)).trans (hframes' h)⟩

end Rules

/-! ## Expressions -/

section Expressions

variable {α : Type} {host : KIRHost ω} {own : Option Nat} {framed : Bool}

theorem leaves_pure (a : α) : Leaves framed own (pure a : Exec ω α) :=
  leaves_quiet fun _ => ⟨rfl, rfl⟩

theorem leaves_done (r : Except ExecDiagnostic α) : Leaves framed own (Exec.done r : Exec ω α) :=
  leaves_quiet fun _ => ⟨rfl, rfl⟩

theorem leaves_stuck : Leaves framed own (Exec.stuck : Exec ω α) :=
  leaves_quiet fun _ => ⟨rfl, rfl⟩

theorem leaves_perform (f : HostOp ω α) : Leaves framed own (perform f) :=
  leaves_quiet fun _ => ⟨rfl, rfl⟩

theorem leaves_reading (f : ExecData ω → α) : Leaves framed own (Exec.reading f) :=
  leaves_quiet fun _ => ⟨rfl, rfl⟩

/-- What is read comes from the state that the computation is started in. -/
theorem LeavesAt.reading {f : ExecData ω → α} (h : LeavesAt framed own (k (f st.data)) st) :
    LeavesAt framed own (Exec.reading f >>= k) st :=
  h

theorem leaves_noteCall : Leaves framed own (Exec.noteCall : Exec ω Unit) :=
  leaves_quiet fun _ => ⟨rfl, rfl⟩

variable (e : KIRExecExpr)

theorem leaves_failAt (category : Category) (message : String) :
    Leaves framed own (failAt e category message : Exec ω α) :=
  leaves_done _

theorem Leaves.ite {c : Prop} [Decidable c] {x y : Exec ω α} (hx : Leaves framed own x)
    (hy : Leaves framed own y) : Leaves framed own (if c then x else y) := by
  split
  · exact hx
  · exact hy

theorem defineBinding_ok {data data' : ExecData ω} {s : Nat} {binding : Option KIRBinding}
    {v : Value} (h : defineBinding data s binding v = .ok data') : ∃ b, data' =
      { bindCell data s b data.cells.length with cells := data.cells ++ [v] } := by
  cases binding with
  | none => cases h
  | some b =>
    unfold defineBinding at h
    simp only at h
    split_ifs at h
    cases h
    exact ⟨b, rfl⟩

theorem leaves_define (s : Nat) (binding : Option KIRBinding) (v : Value) (category : Category)
    (source : String) (line column : Nat) :
    Leaves framed (some s)
      (Exec.define s binding v category source line column : Exec ω Unit) := by
  intro st consistent
  cases hdefined : defineBinding st.data s binding v with
  | error message =>
    simp only [Exec.define, Exec.onData, hdefined]
    exact ⟨consistent, .refl _ _, fun _ => ⟨rfl, rfl, fun _ => rfl⟩⟩
  | ok data' =>
    simp only [Exec.define, Exec.onData, hdefined]
    obtain ⟨b, rfl⟩ := defineBinding_ok hdefined
    obtain ⟨consistent', hkeeps⟩ := @bindCell_keeps _ st s st.data.cells.length b [v]
      consistent (by simp) fun m hm => absurd (consistent.bounded m _ hm) (Nat.lt_irrefl _)
    exact ⟨consistent', hkeeps, fun _ => ⟨rfl, rfl, fun _ => rfl⟩⟩

theorem leaves_registerKIRClosure (closure : KIRClosure) :
    Leaves framed own (registerKIRClosure closure : Exec ω Value) :=
  fun _ consistent => ⟨consistent.congr rfl rfl rfl,
    ⟨fun _ _ hscope => ⟨[], by rw [append_nil]; exact hscope, fun _ => rfl⟩, prefix_append _ _,
      fun _ _ => rfl⟩, fun _ => ⟨rfl, rfl, fun _ => rfl⟩⟩

theorem findBinding_binds {data : ExecData ω} {s cell : Nat} {wanted binding : KIRBinding}
    (h : findBinding data s wanted = some (binding, cell)) : Binds data binding.mutable cell := by
  obtain ⟨i, -, hcell⟩ := exists_of_findSome?_eq_some h
  have hentry := mem_of_find?_eq_some hcell
  cases hscope : data.scopes[i]? with
  | none => simp [getD_eq_getElem?_getD, hscope] at hentry
  | some scope =>
    rw [getD_eq_getElem?_getD, hscope] at hentry
    exact ⟨scope, mem_of_getElem? hscope, binding, hentry, rfl⟩

theorem leaves_captureBinding (scope environment : Nat)
    (capture : Option (Mir.KIRCapture execScalars)) :
    Leaves framed (some environment)
      (captureBinding e scope environment capture : Exec ω Unit) := by
  unfold captureBinding
  split
  · exact leaves_failAt e _ _
  · next wanted _ =>
    refine .ite (leaves_failAt e _ _) fun st => .reading ?_
    split
    · exact leaves_failAt e _ _ st
    · next binding cell hfound =>
      by_cases hdiffers : (!sameKIRBinding binding wanted) = true
      · rw [if_pos hdiffers]
        exact leaves_failAt e _ _ st
      rw [if_neg hdiffers]
      refine .reading ?_
      split
      · exact leaves_failAt e _ _ st
      have hmutable : binding.mutable = wanted.mutable := by
        simp only [sameKIRBinding, Bool.not_eq_true', Bool.not_eq_false, Bool.and_eq_true,
          beq_iff_eq] at hdiffers
        exact hdiffers.2
      have hbinds := findBinding_binds hfound
      intro consistent
      have hnew := @bindCell_keeps _ st environment st.data.cells.length binding
        [st.data.cells.getD cell .nil] consistent (by simp)
        fun m hm => absurd (consistent.bounded m _ hm) (Nat.lt_irrefl _)
      have hshared := @bindCell_keeps _ st environment cell binding [] consistent
        (by rw [append_nil]; exact consistent.bounded _ _ hbinds)
      simp only [Exec.changing, Exec.onData]
      split
      · next hm =>
        rw [hm] at hmutable
        rw [hmutable] at hbinds hshared
        obtain ⟨consistent', hkeeps⟩ := hshared fun m hcell => by
          cases m with
          | true => rfl
          | false => exact absurd hcell (consistent.agreed cell hbinds)
        simp only [append_nil] at consistent' hkeeps
        exact ⟨consistent', hkeeps, fun _ => ⟨rfl, rfl, fun _ => rfl⟩⟩
      · exact ⟨hnew.1, hnew.2, fun _ => ⟨rfl, rfl, fun _ => rfl⟩⟩

theorem leaves_captureBindings (scope environment : Nat)
    (captures : List (Option (Mir.KIRCapture execScalars))) :
    Leaves framed (some environment)
      (captureBindings e scope environment captures : Exec ω Unit) := by
  induction captures with
  | nil => exact leaves_pure _
  | cons capture rest ih => exact (leaves_captureBinding e _ _ _).bind fun _ => ih

theorem leaves_all {xs : List (Exec ω α)} (h : ∀ x ∈ xs, Leaves framed own x) :
    Leaves framed own (Exec.all xs) := by
  induction xs with
  | nil => exact leaves_pure _
  | cons x xs ih =>
    apply (h x mem_cons_self).bind
    intro a
    exact (ih fun y hy => h y (mem_cons_of_mem x hy)).bind fun as => leaves_pure _

theorem leaves_checkedValue (v : Value) : Leaves framed own (checkedValue host e v) :=
  (leaves_reading _).bind fun _ => .ite (leaves_pure v) (leaves_failAt e _ _)

theorem leaves_builtValue (operands : List Value) :
    Leaves framed own (builtValue host e operands) :=
  (leaves_perform _).bind fun v => leaves_checkedValue e v

theorem leaves_evalVar (scope : Nat) (binding : Option KIRBinding) :
    Leaves framed own (evalVar host e scope binding) := by
  refine .ite ?_ ((leaves_reading _).bind fun found => ?_)
  · split
    · split
      · exact (leaves_perform _).bind fun _ => (leaves_reading _).bind fun _ =>
          leaves_registerKIRClosure _
      · exact leaves_failAt e _ _
    · exact leaves_failAt e _ _
  · split
    · exact leaves_pure _
    · exact leaves_failAt e _ _

theorem leaves_makeKIRClosure (scope : Nat) (lambda : ExecFunction) :
    Leaves framed own (makeKIRClosure host e scope lambda) := by
  cases lambda with
  | nil => exact leaves_failAt e _ _
  | node value body params captures =>
    apply (leaves_perform _).bind
    intro _
    apply leaves_openScope
    intro environment
    exact (leaves_captureBindings e _ _ _).bind fun _ => leaves_registerKIRClosure _

theorem leaves_evalLogical (left : Value) {right : Exec ω Value}
    (hright : Leaves framed own right) : Leaves framed own (evalLogical e left right) := by
  unfold evalLogical
  split
  · refine .ite (leaves_pure _) (hright.bind fun v => ?_)
    split
    · exact leaves_pure _
    · exact leaves_failAt e _ _
  · exact leaves_failAt e _ _

theorem leaves_evalEntries {runs : List (Exec ω Value × Exec ω Value)}
    (hruns : ∀ run ∈ runs, Leaves framed own run.1 ∧ Leaves framed own run.2)
    (entries : List (Value × Value)) : Leaves framed own (evalEntries host e runs entries) := by
  induction runs generalizing entries with
  | nil => exact leaves_pure _
  | cons run rest ih =>
    obtain ⟨hkey, hitem⟩ := hruns run mem_cons_self
    refine hkey.bind fun k => hitem.bind fun v => .ite (leaves_failAt e _ _) ?_
    exact ih (fun r hr => hruns r (mem_cons_of_mem run hr)) _

theorem leaves_evalFields (declared : List String) {runs : List (String × Exec ω Value)}
    (hruns : ∀ run ∈ runs, Leaves framed own run.2) (fields : List (String × Value)) :
    Leaves framed own (evalFields e declared runs fields) := by
  induction runs generalizing fields with
  | nil => exact leaves_pure _
  | cons run rest ih =>
    refine .ite (leaves_failAt e _ _) ((hruns run mem_cons_self).bind fun v => ?_)
    exact ih (fun r hr => hruns r (mem_cons_of_mem run hr)) _

theorem leaves_evalStruct {values : List (Exec ω Value)}
    (hvalues : ∀ x ∈ values, Leaves framed own x) :
    Leaves framed own (evalStruct host e values) := by
  apply (leaves_reading _).bind
  intro declared
  split
  · exact leaves_failAt e _ _
  · refine (leaves_evalFields e _ (fun run hrun => ?_) _).bind fun fields =>
      .ite (leaves_builtValue e _) (leaves_failAt e _ _)
    exact hvalues _ (of_mem_zip hrun).2

theorem leaves_evalPropagate (scope : Nat) (inner : Value) :
    Leaves framed own (evalPropagate host e scope inner) := by
  have hraise : Leaves framed own (Exec.raise scope inner : Exec ω Unit) :=
    leaves_quiet fun _ => ⟨rfl, rfl⟩
  unfold evalPropagate
  split
  · exact hraise.bind fun _ => leaves_pure _
  · exact hraise.bind fun _ => leaves_pure _
  · exact leaves_checkedValue e _
  · exact leaves_checkedValue e _
  · exact leaves_failAt e _ _

/-! ### Calls -/

theorem leaves_resolveKIRCall {callee : Option (KIRExecExpr × Exec ω Value)}
    (hcallee : ∀ c ∈ callee, Leaves framed own c.2) :
    Leaves framed own (resolveKIRCall host e callee) := by
  unfold resolveKIRCall
  split
  · apply (hcallee _ rfl).bind
    intro v
    split
    · apply (leaves_reading _).bind
      intro closure
      split
      · exact leaves_pure _
      · exact leaves_failAt _ _ _
    · exact leaves_failAt _ _ _
  · split
    · exact leaves_failAt e _ _
    · exact leaves_pure _
    · exact leaves_pure _
    · split
      · exact leaves_pure _
      · exact leaves_failAt e _ _
    · exact leaves_failAt e _ _

/-- The computations of the children of an expression. -/
structure ChildrenLeave (own : Option Nat) (c : Children ω) : Prop where
  left : Leaves true own c.left
  right : Leaves true own c.right
  operand : Leaves true own c.operand
  base : Leaves true own c.base
  receiver : ∀ x ∈ c.receiver, Leaves true own x
  callee : ∀ x ∈ c.callee, Leaves true own x.2
  args : ∀ x ∈ c.args, Leaves true own x
  items : ∀ x ∈ c.items, Leaves true own x
  mapKeys : ∀ x ∈ c.mapKeys, Leaves true own x
  values : ∀ x ∈ c.values, Leaves true own x

theorem leaves_callOperands (callee : Callee) {receiver : Option (Exec ω Value)}
    {args : List (Exec ω Value)} (hreceiver : ∀ x ∈ receiver, Leaves framed own x)
    (hargs : ∀ x ∈ args, Leaves framed own x) :
    Leaves framed own (callOperands host e callee receiver args) := by
  refine (leaves_reading _).bind fun calls => .ite (leaves_failAt e _ _) ?_
  have hreceived : Leaves framed own (evalReceiver receiver) := by
    cases receiver with
    | none => exact leaves_pure _
    | some x => exact (hreceiver x rfl).bind fun v => leaves_pure _
  refine hreceived.bind fun received => (leaves_all hargs).bind fun arguments => ?_
  unfold callWith
  split
  · exact (leaves_done _).bind fun _ => leaves_pure _
  · exact leaves_pure _
  · exact leaves_stuck

variable {invoke : KIRExecCall → Exec ω Value}

section Calls

variable (hinvoke : ∀ own call, Leaves true own (invoke call))

include hinvoke

theorem leaves_evalBuiltin (receiver : Option (Exec ω Value)) {args : List (Exec ω Value)}
    (hargs : ∀ x ∈ args, Leaves true own x) :
    Leaves true own (evalBuiltin host invoke e receiver args) := by
  refine (leaves_perform _).bind fun _ => (leaves_all hargs).bind fun arguments =>
    (leaves_perform _).bind fun result => ?_
  cases result with
  | value v => exact leaves_pure v
  | dispatch call =>
    apply (hinvoke own call).attempt.bind
    intro r
    cases r with
    | ok v => exact leaves_pure _
    | error d => exact leaves_pure _

theorem leaves_evalKIRCall {c : Children ω} (hc : ChildrenLeave own c) :
    Leaves true own (evalKIRCall host invoke e c) := by
  apply (leaves_resolveKIRCall e hc.callee).bind
  intro callee
  have hcall : Leaves true own (callOperands host e callee c.receiver c.args >>= invoke) :=
    (leaves_callOperands e callee hc.receiver hc.args).bind fun call => hinvoke own call
  cases callee with
  | builtin => exact leaves_evalBuiltin e hinvoke c.receiver hc.args
  | trait => exact hcall
  | function function environment typeArguments => exact hcall

theorem leaves_evalNode (scope : Nat) (lambda : ExecFunction) (binding : Option KIRBinding)
    {c : Children ω} (hc : ChildrenLeave own c) :
    Leaves true own (evalNode host invoke e scope lambda binding c) := by
  have hchecked : ∀ v, Leaves true own (checkedValue host e v) := leaves_checkedValue e
  have hbuilt : ∀ vs, Leaves true own (builtValue host e vs) := leaves_builtValue e
  unfold evalNode
  split
  any_goals exact hchecked _
  · exact hbuilt _
  · exact (leaves_evalVar e scope binding).bind hchecked
  · exact (leaves_makeKIRClosure e scope lambda).bind hchecked
  · exact hc.operand.bind fun v => hbuilt _
  · refine hc.left.bind fun left => .ite (leaves_evalLogical e left hc.right) ?_
    exact hc.right.bind fun right => hbuilt _
  · exact (leaves_all hc.items).bind hbuilt
  · exact (leaves_all hc.items).bind hbuilt
  · refine (leaves_evalEntries e (fun run hrun => ?_) []).bind fun entries => hbuilt _
    exact ⟨hc.mapKeys _ (of_mem_zip hrun).1, hc.values _ (of_mem_zip hrun).2⟩
  · exact leaves_evalStruct e hc.values
  · exact hc.base.bind fun base => hc.left.bind fun index => hbuilt _
  · exact hc.base.bind fun base => hbuilt _
  · exact hc.operand.bind fun inner => leaves_evalPropagate e scope inner
  · exact (leaves_evalKIRCall e hinvoke hc).bind hchecked
  · exact leaves_failAt e _ _

end Calls

mutual

/-- The induction is on the syntax of expressions. -/
theorem leaves_evalExpr (hinvoke : ∀ own call, Leaves true own (invoke call)) (scope : Nat)
    (e : ExecExpr) : Leaves true own (evalExpr host invoke scope e) := by
  cases e with
  | nil => exact leaves_stuck
  | node value left right operand base receiver callee lambda binding const args items mapKeys
      values =>
    refine (leaves_perform _).bind fun _ => leaves_evalNode value hinvoke scope lambda binding
      ⟨leaves_evalExpr hinvoke scope left, leaves_evalExpr hinvoke scope right,
        leaves_evalExpr hinvoke scope operand, leaves_evalExpr hinvoke scope base,
        fun x hx => ?_, fun x hx => ?_, leaves_evalExprs hinvoke scope args,
        leaves_evalExprs hinvoke scope items, leaves_evalExprs hinvoke scope mapKeys,
        leaves_evalExprs hinvoke scope values⟩
    · cases receiver with
      | nil => cases hx
      | node => exact Option.some.inj hx ▸ leaves_evalExpr hinvoke scope _
    · cases callee with
      | nil => cases hx
      | node => exact Option.some.inj hx ▸ leaves_evalExpr hinvoke scope _

theorem leaves_evalExprs (hinvoke : ∀ own call, Leaves true own (invoke call)) (scope : Nat)
    (es : List ExecExpr) : ∀ x ∈ evalExprs host invoke scope es, Leaves true own x := by
  intro x hx
  cases es with
  | nil => cases hx
  | cons e es =>
    rcases mem_cons.mp hx with rfl | hrest
    · exact leaves_evalExpr hinvoke scope e
    · exact leaves_evalExprs hinvoke scope es x hrest

end

variable (hinvoke : ∀ own call, Leaves true own (invoke call))

include hinvoke

theorem leaves_childrenOf (scope : Nat) (e : ExecExpr) :
    ChildrenLeave own (childrenOf host invoke scope e) := by
  cases e with
  | nil =>
    refine ⟨leaves_stuck, leaves_stuck, leaves_stuck, leaves_stuck, ?_, ?_, ?_, ?_, ?_, ?_⟩ <;>
      intro x hx <;> cases hx
  | node value left right operand base receiver callee lambda binding const args items mapKeys
      values =>
    refine ⟨leaves_evalExpr hinvoke scope left, leaves_evalExpr hinvoke scope right,
      leaves_evalExpr hinvoke scope operand, leaves_evalExpr hinvoke scope base, fun x hx => ?_,
      fun x hx => ?_, leaves_evalExprs hinvoke scope args, leaves_evalExprs hinvoke scope items,
      leaves_evalExprs hinvoke scope mapKeys, leaves_evalExprs hinvoke scope values⟩
    · cases receiver with
      | nil => cases hx
      | node => exact Option.some.inj hx ▸ leaves_evalExpr hinvoke scope _
    · cases callee with
      | nil => cases hx
      | node => exact Option.some.inj hx ▸ leaves_evalExpr hinvoke scope _

theorem leaves_evalKIRTailCall (scope : Nat) (call : ExecExpr) :
    Leaves true own (evalKIRTailCall host invoke scope call) := by
  have hc : ChildrenLeave own (childrenOf host invoke scope call) :=
    leaves_childrenOf hinvoke scope call
  refine (leaves_perform _).bind fun _ => (leaves_resolveKIRCall _ hc.callee).bind fun callee => ?_
  have htail : Leaves true own (do
      let tail ← callOperands host (execScalarsOf call) callee
        (childrenOf host invoke scope call).receiver (childrenOf host invoke scope call).args
      return KIRExecFlow.tail tail) :=
    (leaves_callOperands _ callee hc.receiver hc.args).bind fun _ => leaves_pure _
  cases callee with
  | builtin => exact (leaves_evalKIRCall _ hinvoke hc).bind fun v => leaves_pure _
  | trait => exact htail
  | function function environment typeArguments => exact htail

end Expressions

/-! ## Statements -/

section Statements

variable {α : Type} {host : KIRHost ω} {own : Option Nat} {framed : Bool}
  {invoke : KIRExecCall → Exec ω Value} {block : Nat → List ExecStmt → Exec ω KIRExecFlow}

theorem Leaves.beforeCall {x : Exec ω α} (hx : Leaves framed own x) :
    Leaves framed own (Exec.beforeCall x) :=
  hx.attempt.bind fun r => leaves_noteCall.bind fun _ => leaves_done r

theorem Leaves.orReturn {x : Exec ω Value} {next : Value → Exec ω KIRExecFlow}
    {st : ExecState ω} (hx : Leaves framed own x)
    (hnext : ∀ v st', Keeps own st.data st'.data → LeavesAt framed own (next v) st') :
    LeavesAt framed own (x.orReturn next) st := by
  apply (hx.attempt st).bind
  intro result st₁ hkeeps
  have htake : Leaves framed own (Exec.takePropagated : Exec ω (Option Value)) :=
    leaves_quiet fun _ => ⟨rfl, rfl⟩
  apply (htake st₁).bind
  intro waiting st₂ hkeeps'
  cases waiting with
  | some v => exact leaves_pure _ st₂
  | none =>
    apply (leaves_done result st₂).bind
    intro v st₃ hkeeps''
    exact hnext v st₃ ((hkeeps.trans hkeeps').trans hkeeps'')

theorem leaves_debugging (scope : Nat) (s : KIRStmt) :
    Leaves framed own (debugging host scope s) :=
  (leaves_perform _).bind fun _ => .ite (leaves_pure _) (leaves_done _)

theorem leaves_debuggingAgain (first : Bool) (scope : Nat) (s : KIRStmt) :
    Leaves framed own (debuggingAgain host first scope s) :=
  .ite (leaves_pure _) (leaves_debugging scope s)

section Bodies

variable (hblock : ∀ inner body, Leaves true (some inner) (block inner body))

include hblock

theorem leaves_nested (scope : Nat) (body : List ExecStmt) :
    Leaves true own (nested block scope body) :=
  leaves_openScope fun inner => hblock inner body

theorem leaves_execFor (scope : Nat) (s : KIRStmt) (e : KIRExecExpr)
    (binding : Option KIRBinding) (body : List ExecStmt) (items : List Value) (first : Bool) :
    Leaves true own (execFor host block scope s e binding body items first) := by
  induction items generalizing first with
  | nil => exact leaves_pure _
  | cons item items ih =>
    have hround : Leaves true own (forRound host block scope s e binding body item first) :=
      leaves_openScope fun inner => (leaves_define _ _ _ _ _ _ _).bind fun _ =>
        (leaves_debuggingAgain first inner s).bind fun _ => hblock inner body
    apply hround.bind
    intro flow
    cases flow with
    | normal v => exact ih false
    | continued => exact ih false
    | broke | returned v | tail call => exact leaves_pure _

theorem leaves_execMatch (scope : Nat) (e : KIRExecExpr) (v : Value) (arms : List ExecArm) :
    Leaves true own (execMatch block scope e v arms) := by
  induction arms with
  | nil => exact leaves_failAt e _ _
  | cons arm arms ih =>
    cases arm with
    | nil => exact leaves_stuck
    | node armScalars pattern body =>
      cases pattern with
      | none => exact leaves_stuck
      | some pattern =>
        refine .ite (leaves_openScope fun inner => .ite ?_ (hblock inner body)) ih
        cases v.payload with
        | none => exact leaves_done _
        | some payload => exact (leaves_define _ _ _ _ _ _ _).bind fun _ => hblock inner body

/-- Deferred bodies run beside the scope that deferred them. -/
theorem leaves_execDefers (scope : Nat) (bodies : List (List ExecStmt))
    (kept : Option ExecDiagnostic) : Leaves true own (execDefers block scope bodies kept) := by
  induction bodies generalizing kept with
  | nil => exact leaves_pure _
  | cons body rest ih =>
    have hran : Leaves true own (ranBody block scope body) := by
      apply (leaves_quiet fun _ => ⟨rfl, rfl⟩ : Leaves true own Exec.waiting).bind
      intro waiting
      apply (leaves_nested hblock scope body).attempt.bind
      intro result
      exact (leaves_quiet fun _ => ⟨rfl, rfl⟩).bind fun _ => leaves_pure _
    exact hran.bind fun failure => ih _

theorem leaves_leaveBlock (scope : Nat) (outcome : Except ExecDiagnostic KIRExecFlow) :
    Leaves true own (leaveBlock block scope outcome) := by
  have hrecord : ∀ moment, Leaves true own (Exec.record scope moment : Exec ω Unit) :=
    fun _ => leaves_quiet fun _ => ⟨rfl, rfl⟩
  apply (hrecord _).bind
  intro _
  apply (leaves_quiet fun _ => ⟨rfl, rfl⟩ : Leaves true own (Exec.deferredBodies scope)).bind
  intro bodies
  apply (leaves_execDefers hblock scope _ _).bind
  intro failure
  exact (hrecord _).bind fun _ => leaves_done _

variable (hinvoke : ∀ own call, Leaves true own (invoke call))

include hinvoke

omit hblock in
theorem leaves_withValue {next : Value → Exec ω KIRExecFlow} (scope : Nat) (e : ExecExpr)
    (hnext : ∀ v, Leaves true own (next v)) :
    Leaves true own (withValue host invoke scope e next) :=
  fun _ => (leaves_evalExpr hinvoke scope e).orReturn fun v st' _ => hnext v st'

omit hblock in
theorem leaves_withBool {next : Bool → Exec ω KIRExecFlow} (scope : Nat) (e : ExecExpr)
    (hnext : ∀ b, Leaves true own (next b)) :
    Leaves true own (withBool host invoke scope e next) := by
  apply leaves_withValue hinvoke
  intro v
  split
  · exact hnext _
  · exact leaves_failAt _ _ _

theorem leaves_execWhile (scope : Nat) (s : KIRStmt) (cond : ExecExpr) (body : List ExecStmt)
    (rounds : Nat) (first : Bool) :
    Leaves true own (execWhile host invoke block scope s cond body rounds first) := by
  induction rounds generalizing first with
  | zero => exact leaves_stuck
  | succ n ih =>
    refine (leaves_debuggingAgain first scope s).bind fun _ => (leaves_perform _).bind fun _ =>
      leaves_withBool hinvoke scope cond fun b => .ite ?_ (leaves_pure _)
    apply (leaves_nested hblock scope body).bind
    intro flow
    cases flow with
    | normal v => exact ih false
    | continued => exact ih false
    | broke | returned v | tail call => exact leaves_pure _

omit hblock in
theorem leaves_execReturn (scope : Nat) (s : KIRStmt) (e : ExecExpr) :
    Leaves true own (execReturn host invoke scope s e) := by
  cases e with
  | nil => exact leaves_pure _
  | node =>
    refine .ite (leaves_evalKIRTailCall hinvoke scope _).beforeCall
      (leaves_withValue hinvoke scope _ fun v => .ite ?_ (leaves_pure _))
    apply (leaves_reading _).bind
    intro type
    cases type with
    | none => exact leaves_done _
    | some type => exact leaves_pure _

omit hblock in
/-- An assignment sets a cell that only mutable bindings bind. -/
theorem leaves_execAssign (scope : Nat) (target value : ExecExpr) :
    Leaves true own (execAssign host invoke scope target value) := by
  refine fun st => .reading ?_
  split
  · exact leaves_failAt _ _ _ st
  · next binding cell hfound =>
    split
    · exact leaves_failAt _ _ _ st
    next hmutable =>
    obtain ⟨wanted, -, hfound⟩ := Option.bind_eq_some_iff.mp hfound
    have hbinds : Binds st.data true cell := by
      have := findBinding_binds hfound
      rwa [show binding.mutable = true by simpa using hmutable] at this
    apply (leaves_evalExpr hinvoke scope value).orReturn
    intro v st' hkeeps consistent
    have hbinds' : Binds st'.data true cell := hbinds.keep hkeeps
    refine ⟨⟨consistent.numbered, fun m c hc => ?_, consistent.agreed⟩,
      ⟨fun s scope hscope => ⟨[], by rw [append_nil]; exact hscope, fun _ => rfl⟩, prefix_rfl,
        fun c hc => ?_⟩, fun _ => ⟨rfl, rfl, fun _ => rfl⟩⟩
    · exact (consistent.bounded m c hc).trans_eq (length_set ..).symm
    · have hne : cell ≠ c := fun heq => consistent.agreed c (heq ▸ hbinds') hc
      exact getElem?_set_ne hne

theorem leaves_execStmt (rounds scope : Nat) (stmt : ExecStmt) :
    Leaves true (some scope) (execStmt host invoke block rounds scope stmt) := by
  cases stmt with
  | nil => exact leaves_stuck
  | node s binding init expr target value cond iter ret scrutinee thenBody elseBody body arms =>
    unfold execStmt
    simp only
    have hlet : Leaves true (some scope) (withValue host invoke scope init fun v => do
        Exec.define scope binding v .runtime s.source s.line s.column
        return .normal .nil) :=
      leaves_withValue hinvoke scope init fun v =>
        (leaves_define _ _ _ _ _ _ _).bind fun _ => leaves_pure _
    split
    · exact hlet
    · exact hlet
    · exact leaves_execAssign hinvoke scope target value
    · exact leaves_withValue hinvoke scope expr fun v => leaves_pure _
    · exact leaves_withBool hinvoke scope cond fun b => leaves_nested hblock scope _
    · exact leaves_execWhile hblock hinvoke scope s cond body rounds true
    · apply leaves_withValue hinvoke
      intro v
      split
      · exact leaves_failAt _ _ _
      · exact leaves_execFor hblock scope s _ binding body _ true
    · exact leaves_pure _
    · exact leaves_pure _
    · intro st consistent
      exact ⟨consistent.congr rfl rfl (length_modify ..), .refl _ _,
        fun _ => ⟨rfl, rfl, fun _ => rfl⟩⟩
    · exact leaves_nested hblock scope body
    · exact leaves_withValue hinvoke scope scrutinee fun v =>
        leaves_execMatch hblock scope _ v arms
    · exact leaves_execReturn hinvoke scope s ret
    · exact leaves_done _

theorem leaves_execBlock (rounds : Nat) (mode : BlockMode) (scope : Nat) (stmts : List ExecStmt) :
    Leaves true (some scope) (execBlock host invoke block rounds mode scope stmts) := by
  have hafter : ∀ stmt s flow, Leaves true (some scope) (afterStmt host mode stmt s flow) := by
    intro stmt s flow
    refine (Leaves.ite ?_ (leaves_pure _)).bind fun _ => .ite (leaves_perform _) (leaves_pure _)
    unfold displayFlow
    split
    · exact leaves_pure _
    · exact (leaves_reading _).bind fun text => leaves_perform _
  have hstmt : ∀ stmt,
      Leaves true (some scope) (blockStmt host invoke block rounds mode scope stmt) := by
    intro stmt
    cases stmt with
    | nil => exact leaves_stuck
    | node s =>
      exact (leaves_debugging scope s).bind fun _ => (leaves_perform _).bind fun _ =>
        (leaves_execStmt hblock hinvoke rounds scope _).bind fun flow =>
          (hafter _ s flow).bind fun _ => leaves_pure _
  have hstmts : ∀ flow, Leaves true (some scope)
      (execStmts host invoke block rounds mode scope stmts flow) := by
    induction stmts with
    | nil => exact leaves_pure
    | cons stmt rest ih =>
      intro flow
      apply (hstmt stmt).bind
      intro flow
      cases flow with
      | normal v => exact ih _
      | broke | continued | returned v | tail call => exact leaves_pure _
  exact (hstmts _).attempt.bind fun outcome => leaves_leaveBlock hblock scope outcome

end Bodies

end Statements

/-! ## Functions and programs -/

section Programs

variable {host : KIRHost ω} {own : Option Nat} {invoke : KIRExecCall → Exec ω Value}
  {block : Nat → List ExecStmt → Exec ω KIRExecFlow}
  (hblock : ∀ inner body, Leaves true (some inner) (block inner body))
  (hinvoke : ∀ own call, Leaves true own (invoke call))

include hinvoke in
theorem leaves_bindParams (call : KIRExecExpr) (child : Nat) (params : List ExecParam)
    (arguments : List Value) :
    Leaves true (some child) (bindParams host invoke call child params arguments) := by
  induction params generalizing arguments with
  | nil => exact leaves_pure _
  | cons param params ih =>
    obtain _ | ⟨p, default, binding⟩ := param
    · exact leaves_stuck
    · cases arguments with
      | cons argument arguments =>
        exact (leaves_define _ _ _ _ _ _ _).bind fun _ => ih arguments
      | nil =>
        cases default with
        | nil => exact leaves_failAt _ _ _
        | node =>
          apply (leaves_evalExpr hinvoke child _).beforeCall.bind
          intro argument
          exact (leaves_define _ _ _ _ _ _ _).bind fun _ => ih []

theorem leaves_bindReceiver (f : KIRFunction) (call : KIRExecCall) (child : Nat) :
    Leaves true (some child) (bindReceiver host f call child) := by
  refine .ite ?_ (leaves_pure _)
  split
  · exact leaves_define _ _ _ _ _ _ _
  · exact leaves_pure _
  · exact leaves_failAt _ _ _

include hblock hinvoke

/-- The body of a function leaves the type that it returns. -/
theorem leaves_enterFunction (call : KIRExecCall) :
    Leaves true own (enterFunction host invoke block call) := by
  unfold enterFunction
  split
  · exact leaves_stuck
  · have hcheck : Leaves true own (checkReceiver host ‹KIRFunction› call) :=
      .ite ((leaves_reading _).bind fun _ => .ite (leaves_pure _) (leaves_failAt _ _ _))
        (.ite (leaves_failAt _ _ _) (leaves_pure _))
    refine hcheck.bind fun _ => .ite (leaves_failAt _ _ _) (leaves_openScope fun child => ?_)
    refine (leaves_bindReceiver _ call child).bind fun _ =>
      (leaves_bindParams hinvoke call.call child _ _).bind fun _ st => ?_
    apply LeavesAt.bracket (hblock child _)
    · exact fun _ => ⟨rfl, rfl, rfl⟩
    · exact fun _ => ⟨rfl, rfl, rfl⟩
    · rintro data ⟨hcalls, hreturnTypes, htypeArgs⟩
      exact ⟨hcalls, by rw [hreturnTypes]; rfl, htypeArgs⟩
    · intro result
      cases result with
      | ok flow => exact leaves_pure flow
      | error d => exact leaves_done _

omit hblock hinvoke in
theorem leaves_functionResult (call : KIRExecCall) (flow : KIRExecFlow) :
    Leaves true own (functionResult host call flow) := by
  apply (leaves_reading _).bind
  intro ret
  split
  · exact (leaves_reading _).bind fun _ => .ite (leaves_pure _) (leaves_failAt _ _ _)
  · exact .ite (leaves_done _) (leaves_pure _)

/-- The loop of tail calls replaces the frame of its type arguments, which the call removes. -/
theorem leaves_invokeLoop (rounds : Nat) (call : KIRExecCall) (framed : Bool) :
    Leaves false own (invokeLoop host invoke block rounds call framed) := by
  induction rounds generalizing call framed with
  | zero => exact leaves_stuck
  | succ n ih =>
    have hframe : ∀ f : List (List (String × String)) → List (List (String × String)),
        Leaves false own
          (Exec.changing fun data : ExecData ω => { data with typeArgs := f data.typeArgs }) :=
      fun f st consistent => ⟨consistent.congr rfl rfl rfl, .congr own rfl rfl rfl,
        fun _ => ⟨rfl, rfl, by simp⟩⟩
    apply (leaves_enterFunction hblock hinvoke call).unframed.bind
    intro flow
    split
    · apply (leaves_reading _).bind
      intro typeArguments
      split
      · exact leaves_failAt _ _ _
      · exact .ite ((hframe fun args => args.dropLast ++ [_]).bind fun _ => ih _ true)
          (.ite (ih _ false) ((hframe fun args => args ++ [_]).bind fun _ => ih _ true))
    · exact (leaves_functionResult call flow).unframed

theorem leaves_invokeKIR (rounds : Nat) (call : KIRExecCall) :
    Leaves true own (invokeKIR host invoke block rounds call) := by
  refine leaves_noteCall.bind fun _ => (leaves_reading _).bind fun calls =>
    .ite (leaves_failAt _ _ _) fun st => .reading ?_
  split
  · exact leaves_failAt _ _ _ st
  · apply LeavesAt.bracket (leaves_invokeLoop hblock hinvoke rounds call _)
    · exact fun _ => ⟨rfl, rfl, rfl⟩
    · exact fun _ => ⟨rfl, rfl, rfl⟩
    · rintro data ⟨hcalls, hreturnTypes, -⟩
      exact ⟨by simp [hcalls], hreturnTypes, fun _ => rfl⟩
    · exact leaves_done

omit hblock hinvoke

/-- Blocks and calls, by induction on how deep they are nested. -/
theorem levels_leave (host : KIRHost ω) (n : Nat) :
    (∀ inner body, Leaves true (some inner) ((levels host n).block inner body)) ∧
      ∀ own call, Leaves true own ((levels host n).invoke call) := by
  induction n with
  | zero =>
    exact ⟨fun _ _ => leaves_stuck, fun _ _ => leaves_noteCall.bind fun _ => leaves_stuck⟩
  | succ n ih =>
    obtain ⟨hblock, hinvoke⟩ := ih
    exact ⟨fun inner body => leaves_execBlock hblock hinvoke n {} inner body,
      fun own call => leaves_invokeKIR hblock hinvoke n call⟩

theorem leaves_execute (host : KIRHost ω) (bound : Nat) (repl : Bool) (entry : Entry) :
    Leaves true (some 0) (execute host bound repl entry) := by
  obtain ⟨hblock, hinvoke⟩ := levels_leave host bound
  cases entry with
  | statements stmts =>
    exact (leaves_execBlock hblock hinvoke bound _ 0 stmts).bind fun _ => leaves_pure _
  | main call =>
    apply (hinvoke (some 0) call).bind
    intro v
    apply (leaves_perform _).bind
    intro _
    split
    · exact (leaves_reading _).bind fun text => leaves_done _
    · exact leaves_pure _

/-- However the evaluation of an expression ends, the scopes are those that were there, with the
    bindings that they had, and new ones. The closures that it calls assign to mutable bindings
    only. If it ends, it has returned from every call. -/
theorem evalExpr_keeps (host : KIRHost ω) (bound scope : Nat) (e : ExecExpr) (st : ExecState ω)
    (consistent : Consistent st) :
    Consistent (evalExpr host (levels host bound).invoke scope e st).2 ∧
      st.data.scopes <+: (evalExpr host (levels host bound).invoke scope e st).2.data.scopes ∧
      Keeps none st.data (evalExpr host (levels host bound).invoke scope e st).2.data ∧
      ((evalExpr host (levels host bound).invoke scope e st).1.isSome = true →
        Restored true st.data (evalExpr host (levels host bound).invoke scope e st).2.data) := by
  obtain ⟨consistent', hkeeps, hframes⟩ :=
    leaves_evalExpr (levels_leave host bound).2 scope e st consistent
  refine ⟨consistent', ?_, hkeeps, hframes⟩
  rw [prefix_iff_getElem?]
  intro s hs
  obtain ⟨more, hs', hmore⟩ := hkeeps.scopes s _ (getElem?_eq_getElem hs)
  rw [hs', hmore (by simp), append_nil]

/-- However a program ends, only its global scope has more bindings than before, and every
    immutable binding has the value that it had. If it ends, it has returned from every call. -/
theorem execute_keeps (host : KIRHost ω) (bound : Nat) (repl : Bool) (entry : Entry)
    (st : ExecState ω) (consistent : Consistent st) :
    Consistent (execute host bound repl entry st).2 ∧
      Keeps (some 0) st.data (execute host bound repl entry st).2.data ∧
      ((execute host bound repl entry st).1.isSome = true →
        Restored true st.data (execute host bound repl entry st).2.data) :=
  leaves_execute host bound repl entry st consistent

end Programs

/-! ## A scope with one binding -/

section Example

/-- `const n: Int = 7` in the global scope. -/
def boundState : ExecState (List String) :=
  initialState { world := [], scopes := [{ values := [(nBinding, 0)] }], cells := [.int 7] }

theorem boundState_consistent : Consistent boundState := by
  have hbinds : ∀ mutable cell, Binds boundState.data mutable cell →
      cell = 0 ∧ mutable = false := by
    rintro mutable cell ⟨scope, hscope, binding, hentry, rfl⟩
    rw [mem_singleton.mp hscope] at hentry
    cases mem_singleton.mp hentry
    exact ⟨rfl, rfl⟩
  refine ⟨rfl, fun m cell h => ?_, fun cell h => ?_⟩
  · rw [(hbinds m cell h).1]
    exact Nat.zero_lt_one
  · cases (hbinds true cell h).2

/-- `f(n)`, in the scope of `n`. -/
theorem evalExpr_keeps_call :
    let e := callExpr "function" "f" "Option[Int]" false [nExpr]
    let host := plainHost (functionsOf propagated)
    Consistent (evalExpr host (levels host 8).invoke 0 e boundState).2 ∧
      boundState.data.scopes <+:
        (evalExpr host (levels host 8).invoke 0 e boundState).2.data.scopes ∧
      Keeps none boundState.data (evalExpr host (levels host 8).invoke 0 e boundState).2.data ∧
      ((evalExpr host (levels host 8).invoke 0 e boundState).1.isSome = true →
        Restored true boundState.data
          (evalExpr host (levels host 8).invoke 0 e boundState).2.data) :=
  evalExpr_keeps (plainHost (functionsOf propagated)) 8 0 _ boundState boundState_consistent

theorem execute_keeps_call :
    let host := plainHost (functionsOf propagated)
    Consistent (execute host 8 false programF boundState).2 ∧
      Keeps (some 0) boundState.data (execute host 8 false programF boundState).2.data ∧
      ((execute host 8 false programF boundState).1.isSome = true →
        Restored true boundState.data (execute host 8 false programF boundState).2.data) :=
  execute_keeps (plainHost (functionsOf propagated)) 8 false programF boundState
    boundState_consistent

end Example

end Kryndel.KIRExec
