import Mathlib.Data.List.InsertIdx
import Kryndel.Concurrency.Dispatch

/-!
# Dispatch slots of the C runtime

The C runtime keeps the handlers of all slots in one array. A new handler is put in front of the
first one of its slot with a smaller priority, where the executor looks for the last one with a
priority that is not smaller. In a slot whose handlers have been reordered these are two places.
-/

namespace Kryndel.Poly

open Systems List

/-- `KPolyEntry`. -/
structure KPolyEntry where
  slot : String
  handler : String
  prio : Int64
deriving DecidableEq, Repr

/-- What a builtin returns: an `Err` with a text, or an `Ok`. -/
abbrev Reply := Except String (Option String)

/-- An operation on the table. -/
inductive PolyOp where
  | register (slot handler : String) (priority : Int64)
  | reorder (slot handler before : String)
  | dispatch (slot input : String)
deriving DecidableEq, Repr

/-! ## The operations -/

section Operations

-- The names that stand for a top-level `fn(String) -> String`, and what such a function returns
-- for an input, unless a diagnostic ends it.
variable (names : List String) (invoke : String → String → Except String String)

/-- `evalKIRDispatch`, where an index outside of a slice is `none`. -/
def evalKIRDispatch (table : DispatchTable) : PolyOp → Option (Reply × DispatchTable)
  | .register slot handler priority =>
    if handler ∉ names then
      some (.error "handler must be a top-level fn(String) -> String", table)
    else
      (registerDispatchEntry table slot handler priority).map fun r =>
        (if r.1 then .ok none else .error "handler already registered in slot", r.2)
  | .reorder slot handler before =>
    (reorderDispatchEntry table slot handler before).map fun r =>
      (if r.1 then .ok none
      else .error "both handlers must already be registered and distinct", r.2)
  | .dispatch slot input =>
    match (table slot).head? with
    | none => some (.error "dispatch slot has no registered handlers", table)
    | some entry => some ((invoke entry.handler input).map some, table)

/-- `K_MAX_POLY`. -/
def maxPoly : Nat := 128

/-- The place of a new entry in `k_poly_register`. -/
def polyPosition (slot : String) (prio : Int64) : List KPolyEntry → Nat
  | [] => 0
  | e :: es => if e.slot = slot ∧ prio > e.prio then 0 else polyPosition slot prio es + 1

/-- The test of `k_poly_find`. -/
def isEntry (slot handler : String) (e : KPolyEntry) : Bool :=
  e.handler == handler && e.slot == slot

/-- `k_poly_register`. The entries from the place on are shifted up by one. -/
def kPolyRegister (flat : List KPolyEntry) (slot handler : String) (prio : Int64) :
    Reply × List KPolyEntry :=
  if handler ∉ names then (.error "handler must be a top-level fn(String) -> String", flat)
  else if flat.any (isEntry slot handler) then
    (.error "handler already registered in slot", flat)
  else if maxPoly ≤ flat.length then (.error "too many dispatch handlers", flat)
  else (.ok none, flat.insertIdx (polyPosition slot prio flat) ⟨slot, handler, prio⟩)

/-- The last index that the loop of `k_poly_reorder` finds for a name. -/
def lastIndex (p : KPolyEntry → Bool) : List KPolyEntry → Option Nat
  | [] => none
  | e :: es => ((lastIndex p es).map (· + 1)).or (if p e then some 0 else none)

/-- `k_poly_reorder`. The entry is shifted out of the array and back into it. -/
def kPolyReorder (flat : List KPolyEntry) (slot handler before : String) :
    Reply × List KPolyEntry :=
  match lastIndex (isEntry slot handler) flat, lastIndex (isEntry slot before) flat with
  | some source, some target =>
    if handler = before then
      (.error "both handlers must already be registered and distinct", flat)
    else
      let e := (flat[source]?).toList
      let target := if source < target then target - 1 else target
      (.ok none, (flat.eraseIdx source).take target ++ e ++ (flat.eraseIdx source).drop target)
  | _, _ => (.error "both handlers must already be registered and distinct", flat)

/-- The C runtime. A diagnostic in a handler ends the program, which is `none`. -/
def kPoly (flat : List KPolyEntry) : PolyOp → Option (Reply × List KPolyEntry)
  | .register slot handler prio => some (kPolyRegister names flat slot handler prio)
  | .reorder slot handler before => some (kPolyReorder flat slot handler before)
  | .dispatch slot input =>
    match flat.find? (·.slot == slot) with
    | none => some (.error "dispatch slot has no registered handlers", flat)
    | some e =>
      if e.handler ∉ names then some (.error "registered handler is missing", flat)
      else match invoke e.handler input with
        | .ok value => some (.ok (some value), flat)
        | .error _ => none

end Operations

/-- The replies to a sequence of operations, and the table after it. -/
def replies {S : Type} (step : S → PolyOp → Option (Reply × S)) :
    S → List PolyOp → Option (List Reply × S)
  | s, [] => some ([], s)
  | s, op :: ops => do
    let (reply, s) ← step s op
    let (rest, s) ← replies step s ops
    some (reply :: rest, s)

/-- The entries of a slot in their order. -/
def order (flat : List KPolyEntry) (slot : String) : List DispatchEntry :=
  (flat.filter (·.slot == slot)).map fun e => ⟨e.handler, e.prio⟩

/-- Whether both runtimes do the same. A handler is valid, and for a new one there is room and the
    entries of its slot with smaller priorities come last; a handler that is invoked returns. -/
def Uniform (names : List String) (invoke : String → String → Except String String)
    (flat : List KPolyEntry) : PolyOp → Prop
  | .register slot handler prio => handler ∈ names ∧
    (flat.any (isEntry slot handler) = false → flat.length < maxPoly ∧
      (order flat slot).Pairwise fun a b => a.priority < prio → b.priority < prio)
  | .reorder _ _ _ => True
  | .dispatch slot input => ∀ entry, (order flat slot).head? = some entry →
    ∃ value, invoke entry.handler input = .ok value

/-- The array holds what the slots hold. -/
structure Same (names : List String) (flat : List KPolyEntry) (table : DispatchTable) : Prop where
  slots : ∀ slot, order flat slot = table slot
  distinct : SlotsDistinct table
  named : ∀ e ∈ flat, e.handler ∈ names

variable {flat : List KPolyEntry} {slot handler before : String}

theorem order_append (xs ys : List KPolyEntry) (slot : String) :
    order (xs ++ ys) slot = order xs slot ++ order ys slot := by
  simp [order]

theorem order_cons (e : KPolyEntry) (es : List KPolyEntry) (slot : String) :
    order (e :: es) slot =
      if e.slot = slot then ⟨e.handler, e.prio⟩ :: order es slot else order es slot := by
  unfold order
  by_cases h : e.slot = slot <;> simp [h]

theorem any_isEntry : flat.any (isEntry slot handler) = true ↔
    handler ∈ (order flat slot).map (·.handler) := by
  simp only [isEntry, order, any_eq_true, map_map, mem_map, mem_filter,
    Bool.and_eq_true, beq_iff_eq, Function.comp]
  constructor
  · rintro ⟨e, he, hhandler, hslot⟩
    exact ⟨e, ⟨he, hslot⟩, hhandler⟩
  · rintro ⟨e, ⟨he, hslot⟩, hhandler⟩
    exact ⟨e, he, hhandler, hslot⟩

/-! ## Registering -/

/-- A new entry in front of the first one with a smaller priority. -/
def placeEntry (new : DispatchEntry) : List DispatchEntry → List DispatchEntry
  | [] => [new]
  | e :: es => if e.priority < new.priority then new :: e :: es else e :: placeEntry new es

theorem order_insert (flat : List KPolyEntry) (slot handler other : String) (prio : Int64) :
    order (flat.insertIdx (polyPosition slot prio flat) ⟨slot, handler, prio⟩) other =
      if other = slot then placeEntry ⟨handler, prio⟩ (order flat slot) else order flat other := by
  induction flat with
  | nil =>
    by_cases h : other = slot
    · simp [polyPosition, order, placeEntry, h]
    · simp [polyPosition, order, h, Ne.symm h]
  | cons e es ih =>
    rw [polyPosition]
    by_cases hfirst : e.slot = slot ∧ prio > e.prio
    · rw [if_pos hfirst, insertIdx_zero, order_cons]
      by_cases h : other = slot
      · rw [if_pos h.symm, if_pos h, h, order_cons, if_pos hfirst.1, placeEntry,
          if_pos hfirst.2]
      · rw [if_neg (Ne.symm h), if_neg h]
    · rw [if_neg hfirst, insertIdx_succ_cons, order_cons, ih]
      by_cases h : other = slot
      · subst h
        rw [if_pos rfl, if_pos rfl, order_cons]
        by_cases hslot : e.slot = other
        · have hprio : ¬ e.prio < prio := fun hlt => hfirst ⟨hslot, hlt⟩
          rw [if_pos hslot, if_pos hslot, placeEntry, if_neg hprio]
        · rw [if_neg hslot, if_neg hslot]
      · rw [if_neg h, if_neg h, order_cons]

theorem placeEntry_placed {new : DispatchEntry} {old placed : List DispatchEntry}
    (h : Placed new old placed)
    (hlast : old.Pairwise fun a b => a.priority < new.priority → b.priority < new.priority) :
    placeEntry new old = placed := by
  obtain ⟨above, below, rfl, rfl, hbelow, habove⟩ := h
  have hkept : ∀ e ∈ above, ¬ e.priority < new.priority := by
    intro e he hlt
    rcases eq_nil_or_concat above with rfl | ⟨init, last, rfl⟩
    · cases he
    · rw [concat_eq_append] at he habove hlast
      have hge := habove last getLast?_concat
      rcases mem_append.mp he with hinit | hself
      · have hpair := (pairwise_append.mp (pairwise_append.mp hlast).1).2.2
        exact Int64.not_lt.mpr hge (hpair e hinit last (mem_singleton_self last) hlt)
      · exact Int64.not_lt.mpr hge (mem_singleton.mp hself ▸ hlt)
  clear hlast habove
  induction above with
  | nil =>
    cases below with
    | nil => rfl
    | cons e es => exact if_pos (hbelow e mem_cons_self)
  | cons e above ih =>
    obtain ⟨he, hrest⟩ := forall_mem_cons.mp hkept
    rw [cons_append, placeEntry, if_neg he, ih hrest]
    rfl

/-! ## Reordering -/

theorem lastIndex_none {p : KPolyEntry → Bool} (h : flat.any p = false) :
    lastIndex p flat = none := by
  induction flat with
  | nil => rfl
  | cons x xs ih =>
    rw [any_cons, Bool.or_eq_false_iff] at h
    simp [lastIndex, ih h.2, h.1]

theorem lastIndex_entry {xs ys : List KPolyEntry} {e : KPolyEntry} (hslot : e.slot = slot)
    (hys : ys.any (isEntry slot e.handler) = false) :
    lastIndex (isEntry slot e.handler) (xs ++ e :: ys) = some xs.length := by
  induction xs with
  | nil => simp [lastIndex, lastIndex_none hys, isEntry, hslot]
  | cons x xs ih => simp [lastIndex, ih]

theorem exists_entry (h : handler ∈ (order flat slot).map (·.handler)) :
    ∃ xs e ys, flat = xs ++ e :: ys ∧ e.slot = slot ∧ e.handler = handler := by
  obtain ⟨e, he, hentry⟩ := any_eq_true.mp (any_isEntry.mpr h)
  rw [isEntry, Bool.and_eq_true, beq_iff_eq, beq_iff_eq] at hentry
  obtain ⟨xs, ys, rfl⟩ := append_of_mem he
  exact ⟨xs, e, ys, rfl, hentry.2, hentry.1⟩

theorem any_split {xs ys : List KPolyEntry} {e : KPolyEntry} (hslot : e.slot = slot)
    (h : ((order (xs ++ e :: ys) slot).map (·.handler)).Nodup) :
    xs.any (isEntry slot e.handler) = false ∧ ys.any (isEntry slot e.handler) = false := by
  rw [order_append, order_cons, if_pos hslot] at h
  have hothers := not_mem_of_split h
  rw [map_append, mem_append, not_or, ← any_isEntry, ← any_isEntry] at hothers
  exact ⟨Bool.eq_false_iff.mpr hothers.1, Bool.eq_false_iff.mpr hothers.2⟩

theorem kPolyReorder_moves (hnodup : ((order flat slot).map (·.handler)).Nodup)
    (hhandler : handler ∈ (order flat slot).map (·.handler))
    (hbefore : before ∈ (order flat slot).map (·.handler)) (hne : handler ≠ before) :
    ∃ flat', kPolyReorder flat slot handler before = (.ok none, flat') ∧ flat'.Perm flat ∧
      MovedBefore handler before (order flat slot) (order flat' slot) ∧
      ∀ other, other ≠ slot → order flat' other = order flat other := by
  obtain ⟨xs, e, ys, rfl, hslot, rfl⟩ := exists_entry hhandler
  obtain ⟨hxs, hys⟩ := any_split hslot hnodup
  have hsource := @lastIndex_entry slot xs ys e hslot hys
  -- it is enough to say where the target is in what is left
  suffices h : ∃ as t bs i, t.slot = slot ∧ t.handler = before ∧ xs ++ ys = as ++ t :: bs ∧
      lastIndex (isEntry slot before) (xs ++ e :: ys) = some i ∧
      (if xs.length < i then i - 1 else i) = as.length by
    obtain ⟨as, t, bs, i, htslot, rfl, hkept, htarget, hplace⟩ := h
    have hget : (xs ++ e :: ys)[xs.length]? = some e := by simp
    have herase : (xs ++ e :: ys).eraseIdx xs.length = as ++ t :: bs := by
      rw [eraseIdx_append_of_length_le (Nat.le_refl _), Nat.sub_self, eraseIdx_zero,
        tail_cons, hkept]
    refine ⟨as ++ e :: t :: bs, ?_, ?_, ?_, ?_⟩
    · rw [kPolyReorder, hsource, htarget]
      simp only [if_neg hne, hget, herase, hplace]
      simp
    · exact (perm_middle.trans (by rw [hkept])).trans perm_middle.symm
    · have horder := congrArg (order · slot) hkept
      simp only [order_append, order_cons, if_pos htslot] at horder
      simp only [order_append, order_cons, if_pos hslot, if_pos htslot] at hnodup ⊢
      exact movedBefore_of_split hnodup rfl rfl horder
    · intro other hother
      have horder := congrArg (order · other) hkept
      have hslot' : e.slot ≠ other := fun heq => hother (heq.symm.trans hslot)
      simp only [order_append, order_cons, if_neg hslot'] at horder ⊢
      exact horder.symm
  rw [order_append, order_cons, if_pos hslot, map_append, map_cons, mem_append,
    mem_cons] at hbefore
  rcases hbefore with habove | heq | hbelow
  · obtain ⟨as, t, bs, rfl, htslot, rfl⟩ := exists_entry habove
    have hassoc : as ++ t :: bs ++ e :: ys = as ++ t :: (bs ++ e :: ys) := by simp
    rw [hassoc] at hnodup ⊢
    refine ⟨as, t, bs ++ ys, as.length, htslot, rfl, by simp,
      lastIndex_entry htslot (any_split htslot hnodup).2, ?_⟩
    rw [if_neg]
    simp
  · exact absurd heq.symm hne
  · obtain ⟨as, t, bs, rfl, htslot, rfl⟩ := exists_entry hbelow
    have hassoc : xs ++ e :: (as ++ t :: bs) = (xs ++ e :: as) ++ t :: bs := by simp
    rw [hassoc] at hnodup ⊢
    refine ⟨xs ++ as, t, bs, (xs ++ e :: as).length, htslot, rfl, by simp,
      lastIndex_entry htslot (any_split htslot hnodup).2, ?_⟩
    simp

theorem movedBefore_unique {old new new' : List DispatchEntry}
    (hnodup : (old.map (·.handler)).Nodup) (h : MovedBefore handler before old new)
    (h' : MovedBefore handler before old new') : new = new' := by
  obtain ⟨hperm, e, t, as, bs, he, ht, hkept, rfl⟩ := h
  obtain ⟨hperm', e', t', as', bs', he', ht', hkept', rfl⟩ := h'
  have hentry : e = e' := inj_on_of_nodup_map hnodup
    (hperm.mem_iff.mp (by simp)) (hperm'.mem_iff.mp (by simp)) (he.trans he'.symm)
  have hrest : ((as ++ t :: bs).map (·.handler)).Nodup :=
    hkept ▸ hnodup.sublist (filter_sublist.map _)
  have hsame : as ++ t :: bs = as' ++ t' :: bs' := hkept.symm.trans hkept'
  have hlength : ∀ xs (x : DispatchEntry) ys, ((xs ++ x :: ys).map (·.handler)).Nodup →
      ((xs ++ x :: ys).map (·.handler)).idxOf x.handler = xs.length := by
    intro xs x ys hxs
    have hothers := not_mem_of_split hxs
    rw [map_append, mem_append, not_or] at hothers
    rw [map_append, idxOf_append_of_notMem hothers.1]
    simp
  have hlengths : as.length = as'.length := by
    rw [← hlength as t bs hrest, hsame, ht.trans ht'.symm]
    exact hlength as' t' bs' (hsame ▸ hrest)
  obtain ⟨hinit, hend⟩ := append_inj hsame hlengths
  rw [hentry, hinit, hend]

/-! ## Both runtimes -/

section Both

variable {names : List String} {invoke : String → String → Except String String}
  {table : DispatchTable}

/-- One operation has one reply, and leaves the same table behind. -/
theorem Same.step (h : Same names flat table) (op : PolyOp)
    (huniform : Uniform names invoke flat op) : ∃ reply flat' table',
      kPoly names invoke flat op = some (reply, flat') ∧
      evalKIRDispatch names invoke table op = some (reply, table') ∧
      Same names flat' table' := by
  cases op with
  | register slot handler prio =>
    obtain ⟨hvalid, hfits⟩ := huniform
    obtain ⟨ok, table', hgo, hdoes, hdistinct⟩ := h.distinct.register slot handler prio
    rw [evalKIRDispatch, kPoly, kPolyRegister, hgo, if_neg (not_not_intro hvalid),
      if_neg (not_not_intro hvalid)]
    cases ok with
    | false =>
      have hany : flat.any (isEntry slot handler) = true := by
        rw [any_isEntry, h.slots]
        by_contra hmem
        exact Bool.false_ne_true (hdoes.succeeds.mpr hmem)
      rw [if_pos hany]
      exact ⟨_, flat, table', rfl, rfl, hdoes.failed rfl ▸ h⟩
    | true =>
      have hany : flat.any (isEntry slot handler) = false := by
        rw [Bool.eq_false_iff, ne_eq, any_isEntry, h.slots]
        exact hdoes.succeeds.mp rfl
      obtain ⟨hroom, hlast⟩ := hfits hany
      rw [if_neg (by simp [hany]), if_neg (Nat.not_le.mpr hroom)]
      refine ⟨_, _, table', rfl, rfl, ?_, hdistinct, ?_⟩
      · intro other
        rw [order_insert]
        split
        · next heq =>
          rw [heq]
          exact placeEntry_placed (h.slots slot ▸ hdoes.placed rfl) hlast
        · next hne => rw [hdoes.others other hne, h.slots]
      · intro e he
        rcases eq_or_mem_of_mem_insertIdx he with rfl | hmem
        · exact hvalid
        · exact h.named e hmem
  | reorder slot handler before =>
    obtain ⟨ok, table', hgo, hdoes, hdistinct⟩ := h.distinct.reorder slot handler before
    rw [evalKIRDispatch, kPoly, hgo]
    have hsucceeds := hdoes.succeeds
    rw [← h.slots] at hsucceeds
    cases ok with
    | false =>
      have herror : kPolyReorder flat slot handler before =
          (.error "both handlers must already be registered and distinct", flat) := by
        rw [kPolyReorder]
        split
        · next hsource htarget =>
          refine if_pos (by_contra fun hne => Bool.false_ne_true (hsucceeds.mpr ⟨?_, ?_, hne⟩))
          · rw [← any_isEntry]
            by_contra hany
            rw [lastIndex_none (Bool.eq_false_iff.mpr hany)] at hsource
            cases hsource
          · rw [← any_isEntry]
            by_contra hany
            rw [lastIndex_none (Bool.eq_false_iff.mpr hany)] at htarget
            cases htarget
        · rfl
      rw [herror]
      exact ⟨_, flat, table', rfl, rfl, hdoes.failed rfl ▸ h⟩
    | true =>
      obtain ⟨hhandler, hbefore, hne⟩ := hsucceeds.mp rfl
      have hnodup : ((order flat slot).map (·.handler)).Nodup := h.slots slot ▸ h.distinct slot
      obtain ⟨flat', hc, hperm, hmoved, hothers⟩ :=
        kPolyReorder_moves hnodup hhandler hbefore hne
      rw [hc]
      refine ⟨_, flat', table', rfl, rfl, ?_, hdistinct, ?_⟩
      · intro other
        by_cases heq : other = slot
        · rw [heq]
          exact movedBefore_unique hnodup hmoved (h.slots slot ▸ hdoes.moved rfl)
        · rw [hothers other heq, hdoes.others other heq, h.slots]
      · exact fun e he => h.named e (hperm.mem_iff.mp he)
  | dispatch slot input =>
    have hhead : (table slot).head? =
        (flat.find? (·.slot == slot)).map fun e => ⟨e.handler, e.prio⟩ := by
      rw [← h.slots, order, head?_map, head?_filter]
    rw [evalKIRDispatch, kPoly, hhead]
    cases hfind : flat.find? (·.slot == slot) with
    | none => exact ⟨_, flat, table, rfl, rfl, h⟩
    | some e =>
      have hnamed := h.named e (mem_of_find?_eq_some hfind)
      obtain ⟨value, hvalue⟩ := huniform ⟨e.handler, e.prio⟩ (by rw [h.slots, hhead, hfind]; rfl)
      simp only [if_neg (not_not_intro hnamed), Option.map_some, hvalue]
      exact ⟨_, flat, table, rfl, rfl, h⟩

end Both

/-- The table after an operation of the C runtime. -/
def kPolyStep (names : List String) (invoke : String → String → Except String String)
    (flat : List KPolyEntry) (op : PolyOp) : Option (List KPolyEntry) :=
  (kPoly names invoke flat op).map (·.2)

/-- In every sequence of uniform operations both runtimes reply the same and have the handlers of
    each slot in one order, and an operation that fails leaves the array as it was. -/
theorem poly_same (names : List String) (invoke : String → String → Except String String)
    (ops : List PolyOp) (h : Meets (kPolyStep names invoke) (Uniform names invoke) [] ops) :
    ∃ results flat table, replies (kPoly names invoke) [] ops = some (results, flat) ∧
      replies (evalKIRDispatch names invoke) (fun _ => []) ops = some (results, table) ∧
      (∀ slot, order flat slot = table slot) ∧
      ∀ op message flat', kPoly names invoke flat op = some (.error message, flat') →
        flat' = flat := by
  have hrun : ∀ flat table, Same names flat table →
      Meets (kPolyStep names invoke) (Uniform names invoke) flat ops →
      ∃ results flat' table', replies (kPoly names invoke) flat ops = some (results, flat') ∧
        replies (evalKIRDispatch names invoke) table ops = some (results, table') ∧
        Same names flat' table' := by
    clear h
    induction ops with
    | nil => exact fun flat table hsame _ => ⟨[], flat, table, rfl, rfl, hsame⟩
    | cons op ops ih =>
      intro flat table hsame hmeets
      obtain ⟨reply, flat₁, table₁, hc, hgo, hsame₁⟩ := hsame.step op hmeets.1
      obtain ⟨results, flat', table', hcs, hgos, hsame'⟩ :=
        ih flat₁ table₁ hsame₁ (hmeets.2 flat₁ (by rw [kPolyStep, hc]; rfl))
      exact ⟨reply :: results, flat', table', by simp [replies, hc, hcs],
        by simp [replies, hgo, hgos], hsame'⟩
  obtain ⟨results, flat, table, hc, hgo, hsame⟩ := hrun [] (fun _ => [])
    ⟨fun _ => rfl, fun _ => nodup_nil, fun _ he => nomatch he⟩ h
  refine ⟨results, flat, table, hc, hgo, hsame.slots, fun op message flat' herror => ?_⟩
  cases op with
  | register slot handler prio =>
    simp only [kPoly, kPolyRegister] at herror
    split at herror <;> [skip; split at herror <;> [skip; split at herror]] <;> cases herror <;> rfl
  | reorder slot handler before =>
    simp only [kPoly, kPolyReorder] at herror
    split at herror <;> [split at herror; skip] <;> cases herror <;> rfl
  | dispatch slot input =>
    simp only [kPoly] at herror
    split at herror <;> [skip; split at herror <;> [skip; split at herror]] <;> cases herror <;> rfl

theorem poly_same_two : ∃ results flat table,
    replies (kPoly ["f", "g"] fun _ s => .ok s) [] [.register "s" "f" 1, .dispatch "s" "x"] =
        some (results, flat) ∧
      replies (evalKIRDispatch ["f", "g"] fun _ s => .ok s) (fun _ => [])
        [.register "s" "f" 1, .dispatch "s" "x"] = some (results, table) ∧
      (∀ slot, order flat slot = table slot) ∧
      ∀ op message flat', kPoly ["f", "g"] (fun _ s => .ok s) flat op =
        some (.error message, flat') → flat' = flat :=
  poly_same _ _ _ ⟨⟨by simp, fun _ => ⟨by decide, .nil⟩⟩, fun _ _ =>
    ⟨fun _ _ => ⟨_, rfl⟩, fun _ _ => trivial⟩⟩

/-- A handler between the priorities of two that were reordered is called by one of the runtimes
    only. -/
theorem poly_reordered : ∃ ops results results' flat table,
    replies (kPoly ["f", "g", "h"] fun name _ => .ok name) [] ops = some (results, flat) ∧
      replies (evalKIRDispatch ["f", "g", "h"] fun name _ => .ok name) (fun _ => []) ops =
        some (results', table) ∧ flat.length ≤ maxPoly ∧ results ≠ results' := by
  refine ⟨[.register "s" "f" 1, .register "s" "g" 5, .reorder "s" "f" "g", .register "s" "h" 3,
    .dispatch "s" ""], _, _, _, _, rfl, rfl, ?_, ?_⟩
  · decide
  · decide

end Kryndel.Poly
