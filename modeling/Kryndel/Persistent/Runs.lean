import Kryndel.Persistent.Versions

/-!
# Runs of persistent arrays

Any sequence of operations on the versions made so far gives versions that denote what the
same operations on lists give. The list that a store keeps once it was asked for all of its
elements is the one it denotes.
-/

namespace Kryndel

open Chunks List Option

variable {α : Type}

/-! ## All elements -/

/-- Every store that keeps a list keeps the one it denotes. -/
def CachesValid (m : Memory α) : Prop :=
  ∀ address store, m.store address = some store → store.once = true →
    ∃ xs, StoreHolds m store xs ∧ m.elements store.flat = some xs

theorem copyAt_end (out rest block : List α) (h : block.length ≤ rest.length) :
    copyAt (out ++ rest) out.length block =
      ((out ++ block) ++ rest.drop block.length, block.length) := by
  have hmin : min ((out ++ rest).length - out.length) block.length = block.length := by
    rw [length_append]
    omega
  rw [copyAt, hmin, take_left, take_length, ← drop_drop, drop_left]

variable {store : PersistentArray} {xs : List α}

variable {blocks : List (List α)}

theorem copyChunks_eq {m : Memory α} {chunks : List Slice} (h : StoreShape m store chunks blocks xs)
    (n k : Nat) (hk : k + n = blocks.length) (rest : List α)
    (hrest : rest.length = (blocks.drop k).flatten.length) :
    copyChunks m store (List.range' k n) ((blocks.take k).flatten ++ rest)
      (blocks.take k).flatten.length = some xs := by
  induction n generalizing k rest with
  | zero =>
    have hall : blocks.take k = blocks := take_of_length_le (by omega)
    rw [drop_eq_nil_of_le (by omega), flatten_nil, length_nil,
      length_eq_zero_iff] at hrest
    rw [hrest, hall, append_nil, h.chunked.flatten]
    rfl
  | succ n ih =>
    have hlt : k < blocks.length := by omega
    obtain ⟨s, -, helements, hchunk⟩ := h.chunk (getElem?_eq_getElem hlt)
    rw [drop_eq_getElem_cons hlt, flatten_cons, length_append] at hrest
    have htake : (blocks.take k).flatten ++ blocks[k] = (blocks.take (k + 1)).flatten := by
      rw [take_succ_eq_append_getElem hlt, flatten_append, flatten_singleton]
    rw [range'_succ]
    show (arrayTreeChunk m store.root store.height k).bind (fun chunk =>
      (m.elements chunk).bind fun chunk => copyChunks m store (List.range' (k + 1) n)
        (copyAt ((blocks.take k).flatten ++ rest) (blocks.take k).flatten.length chunk).1
        ((blocks.take k).flatten.length +
          (copyAt ((blocks.take k).flatten ++ rest) (blocks.take k).flatten.length chunk).2)) = _
    rw [hchunk, bind_some, helements, bind_some, copyAt_end _ _ _ (by omega),
      ← length_append, htake]
    exact ih (k + 1) (by omega) _ (by rw [length_drop]; omega)

variable [Inhabited α]

theorem flatten_holds {m : Memory α} (h : StoreHolds m store xs) :
    ∃ s m', flatten store m = some (s, m') ∧ m.AddsCells m' ∧
      m'.elements s = some xs := by
  obtain ⟨chunks, blocks, hshape⟩ := h
  refine ⟨m.freshSlice xs, m.addArray xs, ?_, m.addArray_adds xs, m.elements_fresh xs rfl⟩
  rw [flatten]
  split
  · rename_i hzero
    rw [hshape.length, length_eq_zero_iff] at hzero
    rw [hzero, newSlice_run]
  · have hcopy := copyChunks_eq hshape blocks.length 0 (Nat.zero_add _)
      (List.replicate store.length default) (by
        rw [length_replicate, drop_zero, hshape.chunked.flatten, hshape.length])
    rw [take_zero, flatten_nil, nil_append, length_nil,
      ← hshape.blocks_length, ← hshape.chunkCount, ← range_eq_range'] at hcopy
    show (copyChunks m store (List.range store.chunkCount) _ 0).bind _ = _
    rw [hcopy, bind_some, newSlice_run]

omit [Inhabited α] in
theorem CachesValid.mono {m m' : Memory α} (h : CachesValid m) (hm : m.Extends m')
    (hstores : ∀ address store, m'.store address = some store → store.once = true →
      m.store address = some store) : CachesValid m' := by
  intro address store hstore honce
  obtain ⟨xs, hholds, hflat⟩ := h address store (hstores address store hstore honce) honce
  exact ⟨xs, hholds.mono hm, hm.elements hflat⟩

omit [Inhabited α] in
theorem CachesValid.keep {m : Memory α} (h : CachesValid m) {address : Nat}
    (hstore : m.store address = some store) (hholds : StoreHolds m store xs) {flat : Slice}
    (hflat : m.elements flat = some xs) :
    m.Extends { m with
        stores := m.stores.set address { store with once := true, flat := flat } } ∧
      CachesValid { m with
        stores := m.stores.set address { store with once := true, flat := flat } } := by
  have hlt : address < m.stores.length := (List.getElem?_eq_some_iff.mp hstore).1
  have hextends : m.Extends { m with
      stores := m.stores.set address { store with once := true, flat := flat } } := by
    refine ⟨prefix_refl _, prefix_refl _, ?_⟩
    intro other store' hstore'
    by_cases hsame : other = address
    · subst hsame
      obtain rfl := Option.some.inj (hstore.symm.trans hstore')
      exact ⟨true, flat, getElem?_set_self hlt⟩
    · exact ⟨_, _, (getElem?_set_ne (Ne.symm hsame)).trans hstore'⟩
  refine ⟨hextends, ?_⟩
  intro other store' hstore' honce
  by_cases hsame : other = address
  · subst hsame
    obtain rfl := Option.some.inj ((getElem?_set_self hlt).symm.trans hstore')
    exact ⟨xs, (hholds.keep true flat).mono hextends, hextends.elements hflat⟩
  · have hold : m.store other = some store' :=
      (getElem?_set_ne (Ne.symm hsame)).symm.trans hstore'
    obtain ⟨ys, hholds', hflat'⟩ := h other store' hold honce
    exact ⟨ys, hholds'.mono hextends, hextends.elements hflat'⟩

variable {v : ArrayValue}

theorem arrayValues_holds {m : Memory α} (h : ValueHolds m v xs) (hcaches : CachesValid m) :
    ∃ s m', arrayValues v m = some (s, m') ∧ m.Extends m' ∧ m'.elements s = some xs ∧
      CachesValid m' := by
  have hvalue := h
  rw [ValueHolds] at h
  split at h
  · rename_i hnone
    refine ⟨v.array, m, ?_, Memory.Extends.refl m, h, hcaches⟩
    rw [arrayValues, hnone]
    rfl
  · rename_i address hsome
    obtain ⟨store, hstore, hholds⟩ := h
    by_cases honce : store.once = true
    · -- The list that is kept is the one that the version denotes.
      obtain ⟨ys, hholds', hflat⟩ := hcaches address store hstore honce
      have hvalue' : ValueHolds m v ys := by
        rw [ValueHolds, hsome]
        exact ⟨store, hstore, hholds'⟩
      obtain rfl := hvalue.unique hvalue'
      refine ⟨store.flat, m, ?_, Memory.Extends.refl m, hflat, hcaches⟩
      rw [arrayValues, hsome]
      show (m.store address).bind _ = _
      rw [hstore, bind_some, if_pos honce]
      rfl
    · obtain ⟨flat, m₁, hflatten, hadds, hflat⟩ := flatten_holds hholds
      have hstore₁ : m₁.store address = some store := by
        rw [Memory.store, hadds.stores]
        exact hstore
      have hcaches₁ : CachesValid m₁ := by
        refine hcaches.mono hadds.extends ?_
        intro other store' hstore' _
        rwa [Memory.store, hadds.stores] at hstore'
      obtain ⟨hextends, hcaches₂⟩ :=
        hcaches₁.keep hstore₁ (hholds.mono hadds.extends) hflat
      refine ⟨flat, _, ?_, hadds.extends.trans hextends, hextends.elements hflat, hcaches₂⟩
      rw [arrayValues, hsome]
      show (m.store address).bind _ = _
      rw [hstore, bind_some, if_neg honce]
      rw [hflatten]
      rfl

/-! ## Operations on versions -/

/-- An operation, on versions that are named by their positions. -/
inductive ArrayOp (α : Type) where
  | literal (values : List α)
  | store (version : Nat)
  | set (version index : Nat) (replacement : α)
  | append (version : Nat) (item : α)
  | values (version : Nat)
deriving Repr

/-- The version at a position. -/
def versionAt (versions : List ArrayValue) (version : Nat) : MemoryM α ArrayValue := fun m =>
  versions[version]?.map fun v => (v, m)

/-- The value with the store that `persistentArrayFor` gives. -/
def withStore (v : ArrayValue) : MemoryM α ArrayValue :=
  match v.arrayStore with
  | some _ => pure v
  | none => do newStore (← persistentArrayFor v)

/-- An operation adds a version, except that reading all elements adds none. -/
def ArrayOp.step (versions : List ArrayValue) : ArrayOp α → MemoryM α (List ArrayValue)
  | .literal xs => do
    return versions ++ [← arrVal xs]
  | .store version => do
    let v ← versionAt versions version
    return versions ++ [← withStore v]
  | .set version index replacement => do
    let v ← versionAt versions version
    return versions ++ [← persistentArraySet v index replacement]
  | .append version item => do
    let v ← versionAt versions version
    return versions ++ [← persistentArrayAppend v item]
  | .values version => do
    let v ← versionAt versions version
    let _ ← arrayValues v
    return versions

omit [Inhabited α] in
/-- The same operation on lists. Indexes are in bounds, as the callers see to. -/
def ArrayOp.spec (lists : List (List α)) : ArrayOp α → Option (List (List α))
  | .literal xs => some (lists ++ [xs])
  | .store version => do
    let xs ← lists[version]?
    return lists ++ [xs]
  | .set version index replacement => do
    let xs ← lists[version]?
    if index < xs.length then some (lists ++ [xs.set index replacement]) else none
  | .append version item => do
    let xs ← lists[version]?
    return lists ++ [xs ++ [item]]
  | .values version => do
    let _ ← lists[version]?
    return lists

/-- A sequence of operations on versions. -/
def runVersions (ops : List (ArrayOp α)) : MemoryM α (List ArrayValue) :=
  ops.foldlM ArrayOp.step []

omit [Inhabited α] in
/-- The same sequence on lists. -/
def runLists (ops : List (ArrayOp α)) : Option (List (List α)) :=
  ops.foldlM ArrayOp.spec []

/-! ## Steps -/

/-- Every version denotes the list at its position. -/
structure VersionsHold (m : Memory α) (versions : List ArrayValue) (lists : List (List α)) :
    Prop where
  versions : List.Forall₂ (ValueHolds m) versions lists
  caches : CachesValid m

section Steps

variable {m : Memory α} {versions : List ArrayValue} {lists lists' : List (List α)}

omit [Inhabited α] in
theorem VersionsHold.versionAt (h : VersionsHold m versions lists) {version : Nat}
    (hxs : lists[version]? = some xs) :
    ∃ v, versionAt versions version m = some (v, m) ∧ ValueHolds m v xs := by
  obtain ⟨hlt, hget⟩ := List.getElem?_eq_some_iff.mp hxs
  have hlt' : version < versions.length := by rwa [h.versions.length_eq]
  have hholds := (forall₂_iff_get.mp h.versions).2 version hlt' hlt
  rw [get_eq_getElem, get_eq_getElem, hget] at hholds
  refine ⟨versions[version], ?_, hholds⟩
  rw [Kryndel.versionAt, getElem?_eq_getElem hlt']
  rfl

omit [Inhabited α] in
theorem VersionsHold.add (h : VersionsHold m versions lists) {m' : Memory α} (hm : m.Extends m')
    (hcaches : CachesValid m') (hv : ValueHolds m' v xs) :
    VersionsHold m' (versions ++ [v]) (lists ++ [xs]) where
  versions := rel_append (h.versions.imp fun _ _ hold => hold.mono hm)
    (List.Forall₂.cons hv List.Forall₂.nil)
  caches := hcaches

omit [Inhabited α] in
theorem VersionsHold.make (h : VersionsHold m versions lists) {run : MemoryM α ArrayValue}
    (hrun : MakesVersion m (run m) xs) :
    ∃ v m', run m = some (v, m') ∧ m.Extends m' ∧
      VersionsHold m' (versions ++ [v]) (lists ++ [xs]) := by
  obtain ⟨v, m', store, heq, hextends, hvalue, hstores, honce⟩ := hrun.result
  refine ⟨v, m', heq, hextends, h.add hextends (h.caches.mono hextends ?_) hvalue⟩
  intro address store' hstore' honce'
  rw [Memory.store, hstores] at hstore'
  by_cases hlt : address < m.stores.length
  · rwa [getElem?_append_left hlt] at hstore'
  · rw [getElem?_append_right (by omega)] at hstore'
    obtain rfl := mem_singleton.mp (mem_of_getElem? hstore')
    rw [honce] at honce'
    cases honce'

omit [Inhabited α] in
theorem withStore_holds (h : ValueHolds m v xs) (hnone : v.arrayStore = none) :
    MakesVersion m (withStore v m) xs := by
  obtain ⟨base, m', hrun, hadds, honce, hholds⟩ := persistentArrayFor_holds h
  refine MakesVersion.of_store ?_ hadds hholds (honce hnone)
  rw [withStore, hnone]
  exact run_bind hrun

theorem VersionsHold.step (h : VersionsHold m versions lists) (op : ArrayOp α)
    (hspec : op.spec lists = some lists') : ∃ versions' m', op.step versions m =
      some (versions', m') ∧ m.Extends m' ∧ versions <+: versions' ∧ lists <+: lists' ∧
        VersionsHold m' versions' lists' := by
  cases op with
  | literal xs =>
    obtain rfl := Option.some.inj hspec
    have hadds := m.addArray_adds xs
    have hvalue : ValueHolds (m.addArray xs) { array := m.freshSlice xs } xs :=
      m.elements_fresh xs rfl
    refine ⟨versions ++ [{ array := m.freshSlice xs }], m.addArray xs, rfl, hadds.extends,
      prefix_append _ _, prefix_append _ _, h.add hadds.extends ?_ hvalue⟩
    exact h.caches.mono hadds.extends fun _ _ hstore _ => hstore
  | store version =>
    obtain ⟨xs, hxs, hspec⟩ := bind_eq_some_iff.mp hspec
    obtain rfl := Option.some.inj hspec
    obtain ⟨v, hat, hvalue⟩ := h.versionAt hxs
    cases hstore : v.arrayStore with
    | none =>
      obtain ⟨v', m', hrun, hextends, hholds⟩ := h.make (withStore_holds hvalue hstore)
      exact ⟨_, m', (run_bind hat).trans (run_bind hrun), hextends, prefix_append _ _,
        prefix_append _ _, hholds⟩
    | some address =>
      have hrun : withStore v m = some (v, m) := by
        rw [withStore, hstore]
        rfl
      exact ⟨_, m, (run_bind hat).trans (run_bind hrun), Memory.Extends.refl m,
        prefix_append _ _, prefix_append _ _,
        h.add (Memory.Extends.refl m) h.caches hvalue⟩
  | set version index replacement =>
    obtain ⟨xs, hxs, hspec⟩ := bind_eq_some_iff.mp hspec
    by_cases hindex : index < xs.length
    · rw [if_pos hindex] at hspec
      obtain rfl := Option.some.inj hspec
      obtain ⟨v, hat, hvalue⟩ := h.versionAt hxs
      obtain ⟨v', m', hrun, hextends, hholds⟩ :=
        h.make (persistentArraySet_holds hvalue hindex replacement)
      exact ⟨_, m', (run_bind hat).trans (run_bind hrun), hextends, prefix_append _ _,
        prefix_append _ _, hholds⟩
    · rw [if_neg hindex] at hspec
      cases hspec
  | append version item =>
    obtain ⟨xs, hxs, hspec⟩ := bind_eq_some_iff.mp hspec
    obtain rfl := Option.some.inj hspec
    obtain ⟨v, hat, hvalue⟩ := h.versionAt hxs
    obtain ⟨v', m', hrun, hextends, hholds⟩ := h.make (persistentArrayAppend_holds hvalue item)
    exact ⟨_, m', (run_bind hat).trans (run_bind hrun), hextends, prefix_append _ _,
      prefix_append _ _, hholds⟩
  | values version =>
    obtain ⟨xs, hxs, hspec⟩ := bind_eq_some_iff.mp hspec
    obtain rfl := Option.some.inj hspec
    obtain ⟨v, hat, hvalue⟩ := h.versionAt hxs
    obtain ⟨s, m', hrun, hextends, -, hcaches⟩ := arrayValues_holds hvalue h.caches
    exact ⟨_, m', (run_bind hat).trans (run_bind hrun), hextends, prefix_refl _,
      prefix_refl _, h.versions.imp fun _ _ hold => hold.mono hextends, hcaches⟩

theorem VersionsHold.run (h : VersionsHold m versions lists) (ops : List (ArrayOp α))
    (hspec : ops.foldlM ArrayOp.spec lists = some lists') : ∃ versions' m',
      ops.foldlM ArrayOp.step versions m = some (versions', m') ∧ m.Extends m' ∧
        versions <+: versions' ∧ lists <+: lists' ∧ VersionsHold m' versions' lists' := by
  induction ops generalizing m versions lists with
  | nil =>
    obtain rfl := Option.some.inj hspec
    exact ⟨versions, m, rfl, Memory.Extends.refl m, prefix_refl _, prefix_refl _, h⟩
  | cons op ops ih =>
    obtain ⟨lists₁, hop, hspec⟩ := bind_eq_some_iff.mp hspec
    obtain ⟨versions₁, m₁, hstep, hextends, hversions, hlists, h₁⟩ := h.step op hop
    obtain ⟨versions₂, m₂, hrun, hextends', hversions', hlists', h₂⟩ := ih h₁ hspec
    refine ⟨versions₂, m₂, ?_, hextends.trans hextends', hversions.trans hversions',
      hlists.trans hlists', h₂⟩
    exact (run_bind hstep).trans hrun

end Steps

/-! ## Refinement -/

/-- The shape of a store: as many chunks as its length needs, of which all but the last are
    full, and a tree in which a path of its height leads to each of them. -/
structure WellShaped (m : Memory α) (store : PersistentArray) : Prop where
  chunkCount : store.chunkCount =
    (store.length + persistentArrayChunkSize - 1) / persistentArrayChunkSize
  height : store.chunkCount ≤ 2 ^ store.height
  chunks : ∃ chunks : List Slice, chunks.length = store.chunkCount ∧
    TreeHolds m store.height store.root (fun i => chunks[i]?) ∧
    ∀ i s, chunks[i]? = some s → 0 < s.length ∧ s.length ≤ persistentArrayChunkSize ∧
      (i + 1 < store.chunkCount → s.length = persistentArrayChunkSize)

/-- What a version shows is a list: its length, the element at every index and all elements;
    and its store is well shaped. -/
structure Faithful (m : Memory α) (v : ArrayValue) (xs : List α) : Prop where
  length : arrayLength m v = some xs.length
  elements : ∀ i < xs.length, arrayAt m v i = xs[i]?
  values : ∃ s m', arrayValues v m = some (s, m') ∧ m'.elements s = some xs
  shape : ∀ address store, v.arrayStore = some address → m.store address = some store →
    WellShaped m store

omit [Inhabited α] in
theorem StoreShape.wellShaped {m : Memory α} {chunks : List Slice}
    (h : StoreShape m store chunks blocks xs) :
    WellShaped m store where
  chunkCount := by
    rw [h.chunkCount, h.blocks_length, h.length]
    exact h.chunked.length_eq (by decide)
  height := h.fits
  chunks := by
    refine ⟨chunks, h.chunkCount.symm, h.tree, ?_⟩
    intro i s hs
    obtain ⟨hlt, rfl⟩ := List.getElem?_eq_some_iff.mp hs
    have hlt' : i < blocks.length := by rwa [← h.blocks_length]
    have helements := (forall₂_iff_get.mp h.elements).2 i hlt hlt'
    have hlength := Memory.elements_length helements
    rw [get_eq_getElem, get_eq_getElem] at hlength
    have hblock : blocks[i]? = some blocks[i] := getElem?_eq_getElem hlt'
    rw [← hlength]
    refine ⟨h.chunked.pos (getElem_mem hlt') (by decide),
      h.chunked.length_le (getElem_mem hlt'), ?_⟩
    intro hnext
    rw [h.chunkCount, h.blocks_length] at hnext
    exact h.chunked.full hnext hblock

theorem Faithful.of_holds {m : Memory α} (h : ValueHolds m v xs) (hcaches : CachesValid m) :
    Faithful m v xs where
  length := arrayLength_eq h
  elements := fun i hi => arrayAt_eq h hi
  values := by
    obtain ⟨s, m', hrun, -, hs, -⟩ := arrayValues_holds h hcaches
    exact ⟨s, m', hrun, hs⟩
  shape := by
    intro address store haddress hstore
    rw [ValueHolds, haddress] at h
    obtain ⟨store', hstore', chunks, blocks, hshape⟩ := h
    obtain rfl := Option.some.inj (hstore'.symm.trans hstore)
    exact hshape.wellShaped

theorem VersionsHold.faithful {m : Memory α} {versions : List ArrayValue} {lists : List (List α)}
    (h : VersionsHold m versions lists) : List.Forall₂ (Faithful m) versions lists :=
  h.versions.imp fun _ _ hold => Faithful.of_holds hold h.caches

omit [Inhabited α] in
theorem VersionsHold.empty : VersionsHold ({} : Memory α) [] [] where
  versions := List.Forall₂.nil
  caches := by
    intro address store hstore
    cases hstore

/-- Persistent arrays refine lists. Wherever a sequence of operations is split, the versions
    made before the split are still there after it, and show the same lists. -/
theorem persistentArray_refines (before after : List (ArrayOp α)) (lists : List (List α))
    (h : runLists (before ++ after) = some lists) :
    ∃ lists₁ versions₁ m₁ versions m, runLists before = some lists₁ ∧
      runVersions before {} = some (versions₁, m₁) ∧
      runVersions (before ++ after) {} = some (versions, m) ∧
      versions₁ <+: versions ∧ lists₁ <+: lists ∧
      List.Forall₂ (Faithful m₁) versions₁ lists₁ ∧
      List.Forall₂ (Faithful m) versions lists := by
  rw [runLists, foldlM_append] at h
  obtain ⟨lists₁, hbefore, hafter⟩ := bind_eq_some_iff.mp h
  obtain ⟨versions₁, m₁, hrun₁, -, -, -, hold₁⟩ := VersionsHold.empty.run before hbefore
  obtain ⟨versions, m, hrun, -, hversions, hlists, hold⟩ := hold₁.run after hafter
  refine ⟨lists₁, versions₁, m₁, versions, m, hbefore, hrun₁, ?_, hversions, hlists,
    hold₁.faithful, hold.faithful⟩
  rw [runVersions, foldlM_append]
  exact (run_bind hrun₁).trans hrun

/-- An array is extended and changed, and both results are extended once more. -/
theorem persistentArray_refines_example :
    ∃ lists₁ versions₁ m₁ versions m,
      runLists [.literal [1, 2], .append 0 3] = some lists₁ ∧
      runVersions [.literal [1, 2], .append 0 3] {} = some (versions₁, m₁) ∧
      runVersions ([.literal [1, 2], .append 0 3] ++ [.set 1 0 7, .append 1 4]) {} =
        some (versions, m) ∧
      versions₁ <+: versions ∧ lists₁ <+: [[1, 2], [1, 2, 3], [7, 2, 3], [1, 2, 3, 4]] ∧
      List.Forall₂ (Faithful m₁) versions₁ lists₁ ∧
      List.Forall₂ (Faithful m) versions [[1, 2], [1, 2, 3], [7, 2, 3], [1, 2, 3, 4]] :=
  persistentArray_refines [.literal [1, 2], .append 0 3] [.set 1 0 7, .append 1 4] _ rfl

end Kryndel
