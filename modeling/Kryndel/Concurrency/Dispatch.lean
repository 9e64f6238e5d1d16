import Mathlib.Data.List.Induction
import Mathlib.Data.List.Nodup
import Mathlib.Logic.Function.Basic
import Kryndel.Systems.Run
import Kryndel.Systems.Slices

/-!
# Dispatch tables

A slot of the dispatch table lists its handlers, the first of which answers.
Registering appends a handler and swaps it upwards while the handler above has a
smaller priority; reordering takes a handler out and puts it before another. A table
that handlers were reordered in need not be sorted, so where a new handler comes to
stand is said by the entries themselves (`Placed`).
-/

namespace Kryndel

open Systems List Option

/-- `DispatchEntry`. -/
structure DispatchEntry where
  handler : String
  priority : Int64
deriving DecidableEq, Repr, Inhabited

/-- `Runtime.Dispatch`: a slot that is not in the map has no entries. -/
abbrev DispatchTable := String → List DispatchEntry

/-! ## The operations -/

/-- The loop of `registerDispatchEntry` with the new entry at `i`. -/
def bubbleUp (entries : List DispatchEntry) : Nat → Option (List DispatchEntry)
  | 0 => some entries
  | i + 1 => do
    let entry ← elementAt entries (i + 1)
    let above ← elementAt entries i
    if entry.priority > above.priority then
      let entries ← storeAt entries (i + 1) above
      let entries ← storeAt entries i entry
      bubbleUp entries i
    else some entries

/-- `registerDispatchEntry`. -/
def registerDispatchEntry (table : DispatchTable) (slot handler : String) (priority : Int64) :
    Option (Bool × DispatchTable) :=
  let entries := table slot
  if entries.any (·.handler == handler) then some (false, table)
  else do
    let entries := entries ++ [⟨handler, priority⟩]
    let entries ← bubbleUp entries (entries.length - 1)
    some (true, Function.update table slot entries)

/-- The loop of `reorderDispatchEntry` that looks for the two handlers, from entry `i` on. -/
def reorderIndices (handler before : String) :
    List DispatchEntry → Int → Int → Int → Int × Int
  | [], _, source, target => (source, target)
  | entry :: rest, i, source, target =>
    reorderIndices handler before rest (i + 1)
      (if entry.handler = handler then i else source)
      (if entry.handler = before then i else target)

/-- `reorderDispatchEntry`. -/
def reorderDispatchEntry (table : DispatchTable) (slot handler before : String) :
    Option (Bool × DispatchTable) :=
  let entries := table slot
  let (source, target) := reorderIndices handler before entries 0 (-1) (-1)
  if source < 0 ∨ target < 0 ∨ handler = before then some (false, table)
  else do
    let entry ← elementAt entries source
    let kept ← sliceRange entries 0 source
    let rest ← sliceRange entries (source + 1) entries.length
    let entries := kept ++ rest
    -- the target stands one place further up without the moved entry
    let target := if source < target then target - 1 else target
    let entries := entries ++ [default]
    let rest ← sliceRange entries target entries.length
    let entries ← copyOver entries (target + 1) rest
    let entries ← storeAt entries target entry
    some (true, Function.update table slot entries)

/-- An operation on the table. -/
inductive DispatchOp where
  | register (slot handler : String) (priority : Int64)
  | reorder (slot handler before : String)
deriving DecidableEq, Repr

/-- One operation, with whether it succeeded. -/
def DispatchOp.apply (table : DispatchTable) : DispatchOp → Option (Bool × DispatchTable)
  | register slot handler priority => registerDispatchEntry table slot handler priority
  | reorder slot handler before => reorderDispatchEntry table slot handler before

/-- The table after an operation. -/
def dispatchStep (table : DispatchTable) (op : DispatchOp) : Option DispatchTable :=
  (op.apply table).map (·.2)

/-! ## What the operations do to a slot -/

/-- A new entry is put where it follows every entry of the same or a greater priority,
    right after the last of them, and the other entries keep their order. -/
def Placed (entry : DispatchEntry) (old new : List DispatchEntry) : Prop :=
  ∃ above below, old = above ++ below ∧ new = above ++ entry :: below ∧
    (∀ e ∈ below, e.priority < entry.priority) ∧
    ∀ e, above.getLast? = some e → entry.priority ≤ e.priority

/-- The entries are the same, the handler stands right before its target, and the other
    entries keep their order. -/
def MovedBefore (handler before : String) (old new : List DispatchEntry) : Prop :=
  new.Perm old ∧ ∃ entry target above below, entry.handler = handler ∧ target.handler = before ∧
    old.filter (·.handler ≠ handler) = above ++ target :: below ∧
    new = above ++ entry :: target :: below

/-- The handlers of each slot are distinct. -/
def SlotsDistinct (table : DispatchTable) : Prop :=
  ∀ slot, ((table slot).map (·.handler)).Nodup

/-- What registering a handler does. -/
structure Registers (table : DispatchTable) (slot handler : String) (priority : Int64)
    (ok : Bool) (table' : DispatchTable) : Prop where
  succeeds : ok = true ↔ handler ∉ (table slot).map (·.handler)
  placed : ok = true → Placed ⟨handler, priority⟩ (table slot) (table' slot)
  others : ∀ other, other ≠ slot → table' other = table other
  failed : ok = false → table' = table

/-- What reordering a handler does. -/
structure Reorders (table : DispatchTable) (slot handler before : String)
    (ok : Bool) (table' : DispatchTable) : Prop where
  succeeds : ok = true ↔ handler ∈ (table slot).map (·.handler) ∧
    before ∈ (table slot).map (·.handler) ∧ handler ≠ before
  moved : ok = true → MovedBefore handler before (table slot) (table' slot)
  others : ∀ other, other ≠ slot → table' other = table other
  failed : ok = false → table' = table

/-! ## Registering -/

theorem bubbleUp_placed (entry : DispatchEntry) (old : List DispatchEntry) :
    ∀ below, ∃ before after, old = before ++ after ∧
      bubbleUp (old ++ entry :: below) old.length = some (before ++ entry :: (after ++ below)) ∧
      (∀ e ∈ after, e.priority < entry.priority) ∧
      ∀ e, before.getLast? = some e → entry.priority ≤ e.priority := by
  induction old using List.reverseRecOn with
  | nil =>
    intro below
    exact ⟨[], [], rfl, rfl, by simp, by simp⟩
  | append_singleton above last ih =>
    intro below
    have hentry : elementAt (above ++ [last] ++ entry :: below) ((above.length : Int) + 1) =
        some entry := by
      have h := elementAt_append (above ++ [last]) entry below
      simpa using h
    have hlast : elementAt (above ++ [last] ++ entry :: below) (above.length : Int) =
        some last := by
      rw [append_assoc, singleton_append]
      exact elementAt_append above last (entry :: below)
    rw [length_append, length_singleton, bubbleUp]
    simp only [hentry, hlast, bind_eq_bind, bind_some]
    by_cases hlt : entry.priority > last.priority
    · have hdown : storeAt (above ++ [last] ++ entry :: below) ((above.length : Int) + 1) last =
          some (above ++ last :: last :: below) := by
        have h := storeAt_append (above ++ [last]) entry last below
        simpa using h
      obtain ⟨before, after, hsplit, hrun, hafter, hbefore⟩ := ih (last :: below)
      refine ⟨before, after ++ [last], ?_, ?_, ?_, hbefore⟩
      · rw [hsplit, append_assoc]
      · rw [if_pos hlt, hdown, bind_some, storeAt_append, bind_some, hrun]
        simp
      · intro e he
        rcases mem_append.mp he with hmem | hmem
        · exact hafter e hmem
        · rw [mem_singleton.mp hmem]
          exact hlt
    · refine ⟨above ++ [last], [], by simp, ?_, by simp, ?_⟩
      · rw [if_neg hlt]
        simp
      · intro e he
        rw [getLast?_append, getLast?_singleton, some_or] at he
        cases he
        exact Int64.not_lt.mp hlt

variable {entry : DispatchEntry}

theorem Placed.handlers {old new : List DispatchEntry} (h : Placed entry old new) :
    (new.map (·.handler)).Perm (entry.handler :: old.map (·.handler)) := by
  obtain ⟨above, below, rfl, rfl, _, _⟩ := h
  simp only [map_append, map_cons]
  exact perm_middle

section Operations

variable {table : DispatchTable}

variable {entries : List DispatchEntry}

theorem SlotsDistinct.update (hinv : SlotsDistinct table) (slot : String)
    (h : (entries.map (·.handler)).Nodup) :
    SlotsDistinct (Function.update table slot entries) := by
  intro other
  by_cases hother : other = slot
  · rw [hother, Function.update_self]
    exact h
  · rw [Function.update_of_ne hother]
    exact hinv other

theorem SlotsDistinct.register (hinv : SlotsDistinct table) (slot handler : String)
    (priority : Int64) : ∃ ok table',
      registerDispatchEntry table slot handler priority = some (ok, table') ∧
      Registers table slot handler priority ok table' ∧ SlotsDistinct table' := by
  by_cases hmem : handler ∈ (table slot).map (·.handler)
  · refine ⟨false, table, ?_, ⟨by simp [hmem], by simp, fun _ _ => rfl, fun _ => rfl⟩, hinv⟩
    have hany : (table slot).any (·.handler == handler) = true := by
      simpa [List.any_eq_true] using hmem
    rw [registerDispatchEntry, if_pos hany]
  · have hany : ¬ (table slot).any (·.handler == handler) = true := by
      simpa [List.any_eq_true] using hmem
    obtain ⟨before, after, hsplit, hrun, hafter, hbefore⟩ :=
      bubbleUp_placed ⟨handler, priority⟩ (table slot) []
    rw [append_nil] at hrun
    have hplaced : Placed ⟨handler, priority⟩ (table slot)
        (before ++ ⟨handler, priority⟩ :: after) :=
      ⟨before, after, hsplit, rfl, hafter, hbefore⟩
    refine ⟨true, Function.update table slot (before ++ ⟨handler, priority⟩ :: after), ?_,
      ⟨by simp [hmem], ?_, ?_, by simp⟩, hinv.update slot ?_⟩
    · rw [registerDispatchEntry, if_neg hany]
      simp [hrun]
    · intro _
      rw [Function.update_self]
      exact hplaced
    · intro other hother
      exact Function.update_of_ne hother _ _
    · rw [hplaced.handlers.nodup_iff, nodup_cons]
      exact ⟨hmem, hinv slot⟩

/-! ## Reordering -/

attribute [local simp] reorderIndices in
theorem reorderIndices_append (handler before : String) (xs ys : List DispatchEntry)
    (i source target : Int) :
    reorderIndices handler before (xs ++ ys) i source target =
      reorderIndices handler before ys (i + xs.length)
        (reorderIndices handler before xs i source target).1
        (reorderIndices handler before xs i source target).2 := by
  induction xs generalizing i source target with
  | nil => simp [reorderIndices]
  | cons x xs ih =>
    simp only [cons_append, reorderIndices, length_cons]
    rw [ih]
    congr 1
    omega

variable {before handler : String} {xs : List DispatchEntry}

theorem reorderIndices_fst (h : handler ∉ xs.map (·.handler)) (i source target : Int) :
    (reorderIndices handler before xs i source target).1 = source := by
  induction xs generalizing i source target with
  | nil => rfl
  | cons x xs ih =>
    rw [map_cons, mem_cons, not_or] at h
    rw [reorderIndices, ih h.2, if_neg (Ne.symm h.1)]

theorem reorderIndices_snd (h : before ∉ xs.map (·.handler)) (i source target : Int) :
    (reorderIndices handler before xs i source target).2 = target := by
  induction xs generalizing i source target with
  | nil => rfl
  | cons x xs ih =>
    rw [map_cons, mem_cons, not_or] at h
    rw [reorderIndices, ih h.2, if_neg (Ne.symm h.1)]

variable {ys : List DispatchEntry}

theorem reorderIndices_source (hentry : entry.handler = handler)
    (hys : handler ∉ ys.map (·.handler)) (source target : Int) :
    (reorderIndices handler before (xs ++ entry :: ys) 0 source target).1 = xs.length := by
  rw [reorderIndices_append, reorderIndices, reorderIndices_fst hys, if_pos hentry, Int.zero_add]

theorem reorderIndices_target (hentry : entry.handler = before) (hys : before ∉ ys.map (·.handler))
    (source target : Int) :
    (reorderIndices handler before (xs ++ entry :: ys) 0 source target).2 = xs.length := by
  rw [reorderIndices_append, reorderIndices, reorderIndices_snd hys, if_pos hentry, Int.zero_add]

theorem exists_split {name : String} (h : name ∈ entries.map (·.handler)) :
    ∃ xs entry ys, entries = xs ++ entry :: ys ∧ entry.handler = name := by
  obtain ⟨entry, hmem, hname⟩ := mem_map.mp h
  obtain ⟨xs, ys, hsplit⟩ := append_of_mem hmem
  exact ⟨xs, entry, ys, hsplit, hname⟩

theorem not_mem_of_split (h : ((xs ++ entry :: ys).map (·.handler)).Nodup) :
    entry.handler ∉ (xs ++ ys).map (·.handler) := by
  have hperm : ((xs ++ entry :: ys).map (·.handler)).Perm
      (entry.handler :: (xs ++ ys).map (·.handler)) := by
    simp only [map_append, map_cons]
    exact perm_middle
  exact (nodup_cons.mp (hperm.nodup_iff.mp h)).1

theorem filter_split (h : ((xs ++ entry :: ys).map (·.handler)).Nodup) :
    (xs ++ entry :: ys).filter (·.handler ≠ entry.handler) = xs ++ ys := by
  have hothers := not_mem_of_split h
  rw [map_append, mem_append, not_or] at hothers
  have hkeep : ∀ zs : List DispatchEntry, entry.handler ∉ zs.map (·.handler) →
      zs.filter (·.handler ≠ entry.handler) = zs := by
    intro zs hzs
    rw [filter_eq_self]
    intro e he
    apply decide_eq_true
    intro heq
    exact hzs (mem_map.mpr ⟨e, he, heq⟩)
  rw [filter_append, filter_cons_of_neg (by simp), hkeep xs hothers.1,
    hkeep ys hothers.2]

/-- The moves of `reorderDispatchEntry` once its two indices are known: the entry at `source`
    is taken out and put back before the element at `target` of what is left. -/
theorem reorderDispatchEntry_run {slot handler before : String}
    {xs ys above below : List DispatchEntry} {entry target : DispatchEntry} {t : Int}
    (hne : handler ≠ before) (hslot : table slot = xs ++ entry :: ys)
    (hkept : xs ++ ys = above ++ target :: below)
    (hindices : reorderIndices handler before (table slot) 0 (-1) (-1) = ((xs.length : Int), t))
    (ht : 0 ≤ t) (hplace : (if (xs.length : Int) < t then t - 1 else t) = above.length) :
    reorderDispatchEntry table slot handler before =
      some (true, Function.update table slot (above ++ entry :: target :: below)) := by
  have hguard : ¬ ((xs.length : Int) < 0 ∨ t < 0 ∨ handler = before) := by
    rintro (h | h | h)
    · omega
    · omega
    · exact hne h
  have hentry : elementAt (xs ++ entry :: ys) (xs.length : Int) = some entry :=
    elementAt_append xs entry ys
  have hfirst : sliceRange (xs ++ entry :: ys) 0 (xs.length : Int) = some xs :=
    sliceRange_prefix xs (entry :: ys)
  have hlast : sliceRange (xs ++ entry :: ys) ((xs.length : Int) + 1)
      ((xs ++ entry :: ys).length : Int) = some ys := by
    have h := sliceRange_suffix (xs ++ [entry]) ys
    simpa using h
  have hgap := openGap above (target :: below) default entry
  rw [reorderDispatchEntry, hindices]
  simp only [if_neg hguard, hslot, hentry, hfirst, hlast, hkept, hplace, bind_eq_bind,
    bind_some]
  simp only [← bind_assoc] at hgap ⊢
  rw [hgap, bind_some]

theorem movedBefore_of_split {xs ys above below : List DispatchEntry} {entry target : DispatchEntry}
    (hnodup : ((xs ++ entry :: ys).map (·.handler)).Nodup) (hentry : entry.handler = handler)
    (htarget : target.handler = before) (hkept : xs ++ ys = above ++ target :: below) :
    MovedBefore handler before (xs ++ entry :: ys) (above ++ entry :: target :: below) := by
  refine ⟨?_, entry, target, above, below, hentry, htarget, ?_, rfl⟩
  · calc (above ++ entry :: target :: below).Perm (entry :: (above ++ target :: below)) :=
          perm_middle
      _ = entry :: (xs ++ ys) := by rw [hkept]
      List.Perm _ (xs ++ entry :: ys) := perm_middle.symm
  · rw [← hentry, filter_split hnodup, hkept]

/-- Reordering keeps the handlers distinct. -/
theorem SlotsDistinct.reorder (hinv : SlotsDistinct table) (slot handler before : String) :
    ∃ ok table', reorderDispatchEntry table slot handler before = some (ok, table') ∧
      Reorders table slot handler before ok table' ∧ SlotsDistinct table' := by
  by_cases hsucc : handler ∈ (table slot).map (·.handler) ∧
      before ∈ (table slot).map (·.handler) ∧ handler ≠ before
  · obtain ⟨hhandler, hbefore, hne⟩ := hsucc
    obtain ⟨xs, entry, ys, hsplit, hentry⟩ := exists_split hhandler
    have hnodup := hinv slot
    rw [hsplit] at hnodup
    -- it is enough to say where the target is in what is left
    suffices h : ∃ above target below t, target.handler = before ∧
        xs ++ ys = above ++ target :: below ∧
        reorderIndices handler before (table slot) 0 (-1) (-1) = ((xs.length : Int), t) ∧
        0 ≤ t ∧ (if (xs.length : Int) < t then t - 1 else t) = above.length by
      obtain ⟨above, target, below, t, htarget, hkept, hindices, ht, hplace⟩ := h
      have hmoved := movedBefore_of_split hnodup hentry htarget hkept
      refine ⟨true, _, reorderDispatchEntry_run hne hsplit hkept hindices ht hplace,
        ⟨by simp [hhandler, hbefore, hne], ?_, ?_, by simp⟩, hinv.update slot ?_⟩
      · intro _
        rw [Function.update_self, hsplit]
        exact hmoved
      · intro other hother
        exact Function.update_of_ne hother _ _
      · exact (hmoved.1.map (·.handler)).nodup_iff.mpr hnodup
    have hothers := not_mem_of_split hnodup
    rw [hentry, map_append, mem_append, not_or] at hothers
    have hsource : (reorderIndices handler before (table slot) 0 (-1) (-1)).1 = xs.length := by
      rw [hsplit]
      exact reorderIndices_source hentry hothers.2 (-1) (-1)
    rw [hsplit, map_append, mem_append, map_cons, mem_cons, hentry] at hbefore
    rcases hbefore with habove | heq | hbelow
    · -- the target is above the entry
      obtain ⟨as, target, bs, rfl, htarget⟩ := exists_split habove
      have hbs : before ∉ (bs ++ entry :: ys).map (·.handler) := by
        rw [append_assoc, cons_append] at hnodup
        have h := not_mem_of_split hnodup
        rw [htarget, map_append, mem_append, not_or] at h
        exact h.2
      refine ⟨as, target, bs ++ ys, as.length, htarget, by simp, ?_, by omega, ?_⟩
      · refine Prod.ext hsource ?_
        rw [hsplit, append_assoc, cons_append]
        exact reorderIndices_target htarget hbs (-1) (-1)
      · rw [if_neg]
        simp only [length_append]
        omega
    · exact absurd heq.symm hne
    · -- the target is below the entry, and moves up by one
      obtain ⟨as, target, bs, rfl, htarget⟩ := exists_split hbelow
      have hbs : before ∉ bs.map (·.handler) := by
        have hassoc : xs ++ entry :: (as ++ target :: bs) =
            (xs ++ entry :: as) ++ target :: bs := by simp
        rw [hassoc] at hnodup
        have h := not_mem_of_split hnodup
        rw [htarget, map_append, mem_append, not_or] at h
        exact h.2
      refine ⟨xs ++ as, target, bs, ((xs ++ entry :: as).length : Int), htarget, by simp, ?_,
        by omega, ?_⟩
      · refine Prod.ext hsource ?_
        have hassoc : xs ++ entry :: (as ++ target :: bs) =
            (xs ++ entry :: as) ++ target :: bs := by simp
        rw [hsplit, hassoc]
        exact reorderIndices_target htarget hbs (-1) (-1)
      · simp only [length_append, length_cons]
        omega
  · refine ⟨false, table, ?_, ⟨by simpa using hsucc, by simp, fun _ _ => rfl, fun _ => rfl⟩, hinv⟩
    have hguard : (reorderIndices handler before (table slot) 0 (-1) (-1)).1 < 0 ∨
        (reorderIndices handler before (table slot) 0 (-1) (-1)).2 < 0 ∨ handler = before := by
      by_cases hhandler : handler ∈ (table slot).map (·.handler)
      · by_cases hbefore : before ∈ (table slot).map (·.handler)
        · refine .inr (.inr ?_)
          by_contra hne
          exact hsucc ⟨hhandler, hbefore, hne⟩
        · refine .inr (.inl ?_)
          rw [reorderIndices_snd hbefore]
          decide
      · refine .inl ?_
        rw [reorderIndices_fst hhandler]
        decide
    rw [reorderDispatchEntry]
    simp [if_pos hguard]

end Operations

/-! ## Every sequence of operations -/

/-- After any sequence of operations on the empty table the handlers of each slot are
    distinct, and the next operation does what it is for and never reads outside of a
    slice. -/
theorem dispatchTable_run (ops : List DispatchOp) :
    ∃ table, run dispatchStep (fun _ => []) ops = some table ∧ SlotsDistinct table ∧
      (∀ slot handler priority, ∃ ok table',
        registerDispatchEntry table slot handler priority = some (ok, table') ∧
        Registers table slot handler priority ok table') ∧
      ∀ slot handler before, ∃ ok table',
        reorderDispatchEntry table slot handler before = some (ok, table') ∧
        Reorders table slot handler before ok table' := by
  have hstep : ∀ table op, SlotsDistinct table →
      ∃ table', dispatchStep table op = some table' ∧ SlotsDistinct table' := by
    intro table op hinv
    cases op with
    | register slot handler priority =>
      obtain ⟨ok, table', hrun, _, hinv'⟩ := hinv.register slot handler priority
      exact ⟨table', by rw [dispatchStep, DispatchOp.apply, hrun, map_some], hinv'⟩
    | reorder slot handler before =>
      obtain ⟨ok, table', hrun, _, hinv'⟩ := hinv.reorder slot handler before
      exact ⟨table', by rw [dispatchStep, DispatchOp.apply, hrun, map_some], hinv'⟩
  have hrun : ∀ table, SlotsDistinct table →
      ∃ table', run dispatchStep table ops = some table' ∧ SlotsDistinct table' := by
    induction ops with
    | nil => exact fun table hinv => ⟨table, rfl, hinv⟩
    | cons op ops ih =>
      intro table hinv
      obtain ⟨table₁, hop, hinv₁⟩ := hstep table op hinv
      rw [run_cons hop]
      exact ih table₁ hinv₁
  obtain ⟨table, htable, hinv⟩ := hrun (fun _ => []) fun _ => nodup_nil
  refine ⟨table, htable, hinv, ?_, ?_⟩
  · intro slot handler priority
    obtain ⟨ok, table', hreg, hdoes, _⟩ := hinv.register slot handler priority
    exact ⟨ok, table', hreg, hdoes⟩
  · intro slot handler before
    obtain ⟨ok, table', hreo, hdoes, _⟩ := hinv.reorder slot handler before
    exact ⟨ok, table', hreo, hdoes⟩

end Kryndel
