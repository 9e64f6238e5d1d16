import Kryndel.Persistent.Tree
import Mathlib.Data.List.Forall2

/-!
# Persistent arrays

Arrays that share their chunks. Replacing and appending elements makes new versions; every
version denotes a list, and goes on denoting it whatever is made of it.
-/

namespace Kryndel

open Chunks List

variable {α : Type}

/-! ## Operations -/

/-- An array `Value`: a slice, or a store. -/
structure ArrayValue where
  array : Slice := .nil
  arrayStore : Option Nat := none
deriving DecidableEq, Repr

def persistentArrayChunkSize : Nat := 32

/-- `arrVal` of a fresh slice. -/
def arrVal (values : List α) : MemoryM α ArrayValue := do
  return { array := ← newSlice values }

/-- The store at an address. -/
def Memory.store (m : Memory α) (address : Nat) : Option PersistentArray :=
  m.stores[address]?

/-- `arrayLength` -/
def arrayLength (m : Memory α) (v : ArrayValue) : Option Nat :=
  match v.arrayStore with
  | some address => (m.store address).map (·.length)
  | none => some v.array.length

/-- `arrayAt` -/
def arrayAt (m : Memory α) (v : ArrayValue) (index : Nat) : Option α :=
  match v.arrayStore with
  | none => m.element v.array index
  | some address => do
    let store ← m.store address
    let chunk := index / persistentArrayChunkSize
    let offset := index % persistentArrayChunkSize
    m.element (← arrayTreeChunk m store.root store.height chunk) offset

/-- `copy(out[at:], chunk)`, with the number of elements that are copied. -/
def copyAt (out : List α) (start : Nat) (chunk : List α) : List α × Nat :=
  let n := min (out.length - start) chunk.length
  (out.take start ++ chunk.take n ++ out.drop (start + n), n)

/-- The loop of `arrayValues` over the chunks. -/
def copyChunks (m : Memory α) (store : PersistentArray) :
    List Nat → List α → Nat → Option (List α)
  | [], out, _ => some out
  | i :: rest, out, start => do
    let chunk ← m.elements (← arrayTreeChunk m store.root store.height i)
    let (out, n) := copyAt out start chunk
    copyChunks m store rest out (start + n)

/-- The function that `arrayValues` runs once. The list it fills is not shared before it is
    kept in the store. -/
def flatten [Inhabited α] (store : PersistentArray) : MemoryM α Slice :=
  if store.length = 0 then newSlice []
  else fun m => do
    let out := List.replicate store.length default
    let out ← copyChunks m store (List.range store.chunkCount) out 0
    newSlice out m

/-- `arrayValues` -/
def arrayValues [Inhabited α] (v : ArrayValue) : MemoryM α Slice :=
  match v.arrayStore with
  | none => pure v.array
  | some address => fun m => do
    let store ← m.store address
    if store.once then return (store.flat, m)
    else
      let (flat, m) ← flatten store m
      return (flat, { m with
        stores := m.stores.set address { store with once := true, flat := flat } })

/-- The loop of `persistentArrayFor` over the elements. -/
def arrayChunks (values : Slice) (start : Nat) : List Slice :=
  if start < values.length then
    let stop := min (start + persistentArrayChunkSize) values.length
    ⟨values.array, values.start + start, stop - start⟩ ::
      arrayChunks values (start + persistentArrayChunkSize)
  else []
termination_by values.length - start
decreasing_by
  rw [persistentArrayChunkSize]
  omega

/-- `persistentArrayFor` -/
def persistentArrayFor (v : ArrayValue) : MemoryM α PersistentArray :=
  match v.arrayStore with
  | some address => fun m => (m.store address).map fun store => (store, m)
  | none => do
    let chunks := arrayChunks v.array 0
    let height := arrayTreeHeight chunks.length
    let root ← arrayTreeBuild chunks 0 height
    return { root := root, height := height, chunkCount := chunks.length
             length := v.array.length, flat := v.array }

/-- A value with a new store. -/
def newStore (store : PersistentArray) : MemoryM α ArrayValue := fun m =>
  some ({ arrayStore := some m.stores.length }, { m with stores := m.stores ++ [store] })

/-- The chunk of an index, which has to be there. -/
def chunkOf (store : PersistentArray) (index : Nat) : MemoryM α Slice := fun m =>
  (arrayTreeChunk m store.root store.height index).map fun chunk => (chunk, m)

/-- `persistentArraySet` -/
def persistentArraySet (v : ArrayValue) (index : Nat) (replacement : α) :
    MemoryM α ArrayValue := do
  let base ← persistentArrayFor v
  let chunkIndex := index / persistentArrayChunkSize
  let chunk ← copySlice (← chunkOf base chunkIndex)
  assignElement chunk (index % persistentArrayChunkSize) replacement
  let root ← arrayTreeSet base.root base.height chunkIndex chunk
  newStore { root := some root, height := base.height, chunkCount := base.chunkCount
             length := base.length }

/-- `persistentArrayAppend` -/
def persistentArrayAppend (v : ArrayValue) (item : α) : MemoryM α ArrayValue := do
  let base ← persistentArrayFor v
  if base.chunkCount = 0 then
    let root ← newNode { chunk := ← newSlice [item] }
    newStore { root := some root, height := 0, chunkCount := 1, length := 1 }
  else
    let last ← chunkOf base (base.chunkCount - 1)
    if last.length < persistentArrayChunkSize then
      let updated ← appendElement (← copySlice last) item
      let root ← arrayTreeSet base.root base.height (base.chunkCount - 1) updated
      newStore { root := some root, height := base.height, chunkCount := base.chunkCount
                 length := base.length + 1 }
    else
      let chunk ← newSlice [item]
      if base.chunkCount ≥ 1 <<< base.height then
        let root ← newNode { left := base.root }
        let root ← arrayTreeSet (some root) (base.height + 1) base.chunkCount chunk
        newStore { root := some root, height := base.height + 1
                   chunkCount := base.chunkCount + 1, length := base.length + 1 }
      else
        let root ← arrayTreeSet base.root base.height base.chunkCount chunk
        newStore { root := some root, height := base.height
                   chunkCount := base.chunkCount + 1, length := base.length + 1 }

/-! ## Slices -/

variable {values : List α} {s : Slice}

theorem Memory.elements_length {m : Memory α} (h : m.elements s = some values) :
    values.length = s.length := by
  rw [Memory.elements] at h
  split at h
  · rename_i hzero
    cases h
    exact hzero.symm
  · obtain ⟨all, -, h⟩ := Option.bind_eq_some_iff.mp h
    split at h
    · rename_i hle
      cases h
      rw [length_take, length_drop]
      omega
    · cases h

theorem Memory.element_eq {m : Memory α} (h : m.elements s = some values) (index : Nat) :
    m.element s index = values[index]? := by
  rw [Memory.element, h]
  rfl

theorem Memory.elements_part {m : Memory α} (h : m.elements s = some values) {start stop : Nat}
    (hle : start ≤ stop) (hstop : stop ≤ values.length) :
    m.elements ⟨s.array, s.start + start, stop - start⟩ =
      some ((values.drop start).take (stop - start)) := by
  have hlength := Memory.elements_length h
  rw [Memory.elements] at h ⊢
  split at h
  · rename_i hzero
    cases h
    have hempty : stop - start = 0 := by
      rw [length_nil] at hstop
      omega
    simp [hempty]
  · obtain ⟨all, hall, h⟩ := Option.bind_eq_some_iff.mp h
    split at h
    · rename_i hbound
      cases h
      by_cases hempty : stop - start = 0
      · rw [if_pos hempty, hempty, take_zero]
      · have hpart : s.start + start + (stop - start) ≤ all.length := by omega
        rw [if_neg hempty, hall, Option.bind_some, if_pos hpart, drop_take, drop_drop,
          take_take, Nat.min_eq_left (by omega)]
    · cases h

/-- Memory with another backing array. -/
def Memory.addArray (m : Memory α) (values : List α) : Memory α :=
  { m with arrays := m.arrays ++ [values] }

/-- The whole of the backing array that is added. -/
def Memory.freshSlice (m : Memory α) (values : List α) : Slice :=
  ⟨m.arrays.length, 0, values.length⟩

theorem newSlice_run (m : Memory α) (values : List α) :
    newSlice values m = some (m.freshSlice values, m.addArray values) := rfl

theorem Memory.addArray_adds (m : Memory α) (values : List α) :
    m.AddsCells (m.addArray values) :=
  ⟨prefix_append _ _, prefix_refl _, rfl⟩

theorem Memory.elements_fresh (m : Memory α) (values : List α) (hs : s = m.freshSlice values) :
    (m.addArray values).elements s = some values := by
  rw [hs, Memory.elements, Memory.freshSlice]
  split
  · rename_i hzero
    rw [length_eq_zero_iff.mp hzero]
  · simp [Memory.addArray]

theorem copySlice_run {m : Memory α} (h : m.elements s = some values) :
    copySlice s m = some (m.freshSlice values, m.addArray values) := by
  rw [copySlice, h]
  rfl

theorem modify_last {β : Type} (l : List β) (b : β) (f : β → β) :
    (l ++ [b]).modify l.length f = l ++ [f b] := by
  induction l with
  | nil => rfl
  | cons b' l ih => rw [cons_append, length_cons, modify_succ_cons, ih]; rfl

variable {index : Nat}

theorem assignElement_run (m : Memory α) (values : List α) (hindex : index < values.length)
    (x : α) :
    assignElement (m.freshSlice values) index x (m.addArray values) =
      some ((), m.addArray (values.set index x)) := by
  have hlength : index < (m.freshSlice values).length := hindex
  rw [assignElement, if_pos hlength]
  simp only [Memory.freshSlice, Memory.addArray, modify_last, Nat.zero_add]

theorem appendElement_run {m : Memory α} (h : m.elements s = some values) (x : α) :
    appendElement s x m = some (m.freshSlice (values ++ [x]), m.addArray (values ++ [x])) := by
  rw [appendElement, h]
  rfl

/-! ## What a store holds -/

/-- A store whose tree holds some chunks, which make up a list. -/
structure StoreShape (m : Memory α) (store : PersistentArray) (chunks : List Slice)
    (blocks : List (List α)) (xs : List α) : Prop where
  tree : TreeHolds m store.height store.root fun i => chunks[i]?
  elements : List.Forall₂ (fun s b => m.elements s = some b) chunks blocks
  chunked : Chunked persistentArrayChunkSize blocks xs
  chunkCount : store.chunkCount = chunks.length
  length : store.length = xs.length
  fits : store.chunkCount ≤ 2 ^ store.height

/-- A store denotes a list. -/
def StoreHolds (m : Memory α) (store : PersistentArray) (xs : List α) : Prop :=
  ∃ chunks blocks, StoreShape m store chunks blocks xs

/-- A version denotes a list. -/
def ValueHolds (m : Memory α) (v : ArrayValue) (xs : List α) : Prop :=
  match v.arrayStore with
  | none => m.elements v.array = some xs
  | some address => ∃ store, m.store address = some store ∧ StoreHolds m store xs

section Shape

variable {m m' : Memory α} {store : PersistentArray} {chunks : List Slice}
  {blocks : List (List α)} {xs : List α}

theorem StoreShape.mono (h : StoreShape m store chunks blocks xs) (hm : m.Extends m') :
    StoreShape m' store chunks blocks xs where
  tree := h.tree.mono hm
  elements := h.elements.imp fun _ _ hs => hm.elements hs
  chunked := h.chunked
  chunkCount := h.chunkCount
  length := h.length
  fits := h.fits

theorem StoreHolds.mono (h : StoreHolds m store xs) (hm : m.Extends m') :
    StoreHolds m' store xs := by
  obtain ⟨chunks, blocks, hshape⟩ := h
  exact ⟨chunks, blocks, hshape.mono hm⟩

theorem StoreHolds.keep (h : StoreHolds m store xs) (once : Bool) (flat : Slice) :
    StoreHolds m { store with once := once, flat := flat } xs := by
  obtain ⟨chunks, blocks, hshape⟩ := h
  exact ⟨chunks, blocks, hshape.tree, hshape.elements, hshape.chunked, hshape.chunkCount,
    hshape.length, hshape.fits⟩

theorem ValueHolds.mono {v : ArrayValue} (h : ValueHolds m v xs) (hm : m.Extends m') :
    ValueHolds m' v xs := by
  rw [ValueHolds] at h ⊢
  split
  · rename_i hnone
    rw [hnone] at h
    exact hm.elements h
  · rename_i address hsome
    rw [hsome] at h
    obtain ⟨store, hstore, hholds⟩ := h
    obtain ⟨once, flat, hstore'⟩ := hm.stores address store hstore
    exact ⟨_, hstore', (hholds.mono hm).keep once flat⟩

theorem StoreShape.blocks_length (h : StoreShape m store chunks blocks xs) :
    chunks.length = blocks.length :=
  h.elements.length_eq

theorem StoreShape.chunk (h : StoreShape m store chunks blocks xs) {i : Nat} {b : List α}
    (hb : blocks[i]? = some b) : ∃ s, chunks[i]? = some s ∧ m.elements s = some b ∧
      arrayTreeChunk m store.root store.height i = some s := by
  obtain ⟨hlt, hget⟩ := List.getElem?_eq_some_iff.mp hb
  have hlt' : i < chunks.length := by rwa [h.blocks_length]
  have helements := (forall₂_iff_get.mp h.elements).2 i hlt' hlt
  have hs : chunks[i]? = some chunks[i] := getElem?_eq_getElem hlt'
  refine ⟨chunks[i], hs, ?_, h.tree.chunk ?_⟩
  · rw [get_eq_getElem, get_eq_getElem, hget] at helements
    exact helements
  · have hpow : i < 2 ^ store.height := by
      have hfits := h.fits
      rw [h.chunkCount] at hfits
      omega
    rw [Nat.mod_eq_of_lt hpow]
    exact hs

end Shape

/-! ## Reading -/

section Reading

variable {m : Memory α} {v : ArrayValue} {xs : List α}

theorem arrayLength_eq (h : ValueHolds m v xs) : arrayLength m v = some xs.length := by
  rw [ValueHolds] at h
  rw [arrayLength]
  split at h
  · rename_i hnone
    rw [hnone, Memory.elements_length h]
  · rename_i address hsome
    obtain ⟨store, hstore, chunks, blocks, hshape⟩ := h
    rw [hsome]
    show (m.store address).map _ = _
    rw [hstore, Option.map_some, hshape.length]

theorem arrayAt_eq (h : ValueHolds m v xs) {i : Nat} (hi : i < xs.length) :
    arrayAt m v i = xs[i]? := by
  rw [ValueHolds] at h
  rw [arrayAt]
  split at h
  · exact Memory.element_eq h i
  · rename_i address hsome
    obtain ⟨store, hstore, chunks, blocks, hshape⟩ := h
    obtain ⟨b, hb, -, hget⟩ := hshape.chunked.getElem? (by decide) hi
    obtain ⟨s, -, helements, hchunk⟩ := hshape.chunk hb
    show ((m.store address).bind fun store =>
      (arrayTreeChunk m store.root store.height (i / persistentArrayChunkSize)).bind fun chunk =>
        m.element chunk (i % persistentArrayChunkSize)) = _
    rw [hstore, Option.bind_some, hchunk, Option.bind_some, Memory.element_eq helements, hget]

theorem ValueHolds.unique {ys : List α} (h : ValueHolds m v xs) (h' : ValueHolds m v ys) :
    xs = ys := by
  have hlength : xs.length = ys.length := by
    have hsame := (arrayLength_eq h).symm.trans (arrayLength_eq h')
    exact Option.some.inj hsame
  apply ext_getElem?
  intro i
  by_cases hi : i < xs.length
  · rw [← arrayAt_eq h hi, arrayAt_eq h' (by rwa [← hlength])]
  · rw [getElem?_eq_none (by omega), getElem?_eq_none (by omega)]

end Reading

/-! ## Making a store -/

theorem arrayChunks_holds {m : Memory α} (h : m.elements s = some values) (start : Nat) :
    ∃ blocks, List.Forall₂ (fun s b => m.elements s = some b) (arrayChunks s start) blocks ∧
      Chunked persistentArrayChunkSize blocks (values.drop start) := by
  have hlength := Memory.elements_length h
  fun_induction arrayChunks s start with
  | case1 start hlt stop ih =>
    obtain ⟨blocks, helements, hchunked⟩ := ih
    have hpart := Memory.elements_part h (show start ≤ stop by omega) (show stop ≤ _ by omega)
    have hsplit : (values.drop start).take persistentArrayChunkSize ++
        values.drop (start + persistentArrayChunkSize) = values.drop start := by
      rw [← drop_drop, take_append_drop]
    by_cases hmore : start + persistentArrayChunkSize < s.length
    · -- A full chunk, and there is another one.
      have hfull : stop - start = persistentArrayChunkSize := by omega
      rw [hfull] at hpart
      have hblock : ((values.drop start).take persistentArrayChunkSize).length =
          persistentArrayChunkSize := by
        rw [length_take, length_drop]
        omega
      have hrest : 0 < blocks.length := by
        rw [hchunked.length_eq (by decide), length_drop]
        exact Nat.div_pos (by omega) (by decide)
      have hcons := Chunked.cons _ hblock hrest hchunked
      rw [hsplit] at hcons
      exact ⟨_, List.Forall₂.cons (by rwa [hfull]) helements, hcons⟩
    · -- The last chunk.
      have hrest : arrayChunks s (start + persistentArrayChunkSize) = [] := by
        rw [arrayChunks, if_neg hmore]
      have hall : (values.drop start).take (stop - start) = values.drop start :=
        take_of_length_le (by rw [length_drop]; omega)
      rw [hall] at hpart
      rw [hrest]
      refine ⟨_, List.Forall₂.cons hpart List.Forall₂.nil, Chunked.last _ ?_ ?_⟩
      all_goals
        rw [length_drop]
        omega
  | case2 start hle =>
    refine ⟨[], List.Forall₂.nil, ?_⟩
    rw [drop_eq_nil_of_le (by omega)]
    exact Chunked.nil

theorem persistentArrayFor_holds {m : Memory α} {v : ArrayValue} {xs : List α}
    (h : ValueHolds m v xs) : ∃ base m', persistentArrayFor v m = some (base, m') ∧
      m.AddsCells m' ∧ (v.arrayStore = none → base.once = false) ∧ StoreHolds m' base xs := by
  rw [ValueHolds] at h
  split at h
  · rename_i hnone
    obtain ⟨blocks, helements, hchunked⟩ := arrayChunks_holds h 0
    let chunks := arrayChunks v.array 0
    obtain ⟨root, m', hrun, hadds, -, htree⟩ :=
      arrayTreeBuild_holds chunks 0 (arrayTreeHeight chunks.length) m
    refine ⟨{ root := root, height := arrayTreeHeight chunks.length, chunkCount := chunks.length
              length := v.array.length, flat := v.array }, m', ?_, hadds, fun _ => rfl, chunks,
      blocks, ?_⟩
    · rw [persistentArrayFor, hnone]
      exact run_bind hrun
    · exact
        { tree := htree.congr fun i _ => by rw [Nat.zero_add]
          elements := helements.imp fun _ _ hs => hadds.extends.elements hs
          chunked := hchunked
          chunkCount := rfl
          length := (Memory.elements_length h).symm
          fits := arrayTreeHeight_fits _ }
  · rename_i address hsome
    obtain ⟨store, hstore, hholds⟩ := h
    refine ⟨store, m, ?_, Memory.AddsCells.refl m, by simp [hsome], hholds⟩
    rw [persistentArrayFor, hsome]
    show (m.store address).map _ = _
    rw [hstore]
    rfl

/-! ## New versions -/

theorem newStore_holds {m : Memory α} {store : PersistentArray} {xs : List α}
    (h : StoreHolds m store xs) : ∃ v m', newStore store m = some (v, m') ∧ m.Extends m' ∧
      ValueHolds m' v xs ∧ m'.stores = m.stores ++ [store] := by
  have hextends : m.Extends { m with stores := m.stores ++ [store] } :=
    { arrays := prefix_refl _
      nodes := prefix_refl _
      stores := fun address store' hstore =>
        ⟨_, _, getElem?_of_initial (prefix_append _ _) hstore⟩ }
  refine ⟨_, _, rfl, hextends, ⟨store, ?_, h.mono hextends⟩, rfl⟩
  simp [Memory.store]

theorem forall₂_set {m : Memory α} {chunks : List Slice} {blocks : List (List α)}
    (h : List.Forall₂ (fun s b => m.elements s = some b) chunks blocks) {b : List α}
    (hs : m.elements s = some b) (i : Nat) :
    List.Forall₂ (fun s b => m.elements s = some b) (chunks.set i s) (blocks.set i b) := by
  induction h generalizing i with
  | nil => exact List.Forall₂.nil
  | cons hfirst hrest ih =>
    cases i with
    | zero => exact List.Forall₂.cons hs hrest
    | succ i => exact List.Forall₂.cons hfirst (ih i)

theorem getElem?_set_update {chunks : List Slice} {i : Nat} (hi : i < chunks.length) (s : Slice) :
    (fun j => (chunks.set i s)[j]?) = Function.update (fun j => chunks[j]?) i (some s) := by
  funext j
  by_cases hj : j = i
  · subst hj
    rw [Function.update_self, getElem?_set_self hi]
  · rw [Function.update_of_ne hj, getElem?_set_ne (Ne.symm hj)]

theorem getElem?_append_update (chunks : List Slice) (s : Slice) :
    (fun j => (chunks ++ [s])[j]?) =
      Function.update (fun j => chunks[j]?) chunks.length (some s) := by
  funext j
  by_cases hj : j = chunks.length
  · subst hj
    rw [Function.update_self, getElem?_concat_length]
  · rw [Function.update_of_ne hj]
    by_cases hlt : j < chunks.length
    · rw [getElem?_append_left hlt]
    · have hlength : (chunks ++ [s]).length ≤ j := by
        rw [length_append, length_singleton]
        omega
      rw [getElem?_eq_none hlength, getElem?_eq_none (by omega)]

/-- A new version, which leaves the earlier ones as they are. -/
structure MakesVersion (m : Memory α) (run : Option (ArrayValue × Memory α)) (xs : List α) :
    Prop where
  result : ∃ v m' store, run = some (v, m') ∧ m.Extends m' ∧ ValueHolds m' v xs ∧
    m'.stores = m.stores ++ [store] ∧ store.once = false

theorem MakesVersion.of_store {m m' : Memory α} {run : Option (ArrayValue × Memory α)}
    {store : PersistentArray} {xs : List α} (hrun : run = newStore store m')
    (hm : m.AddsCells m') (hholds : StoreHolds m' store xs) (honce : store.once = false) :
    MakesVersion m run xs := by
  obtain ⟨v, m'', hnew, hextends, hvalue, hstores⟩ := newStore_holds hholds
  refine ⟨v, m'', store, hrun.trans hnew, hm.extends.trans hextends, hvalue, ?_, honce⟩
  rw [hstores, hm.stores]

theorem chunkOf_run {m : Memory α} {store : PersistentArray}
    (h : arrayTreeChunk m store.root store.height index = some s) :
    chunkOf store index m = some (s, m) := by
  rw [chunkOf, h]
  rfl

theorem persistentArraySet_holds {m : Memory α} {v : ArrayValue} {xs : List α}
    (h : ValueHolds m v xs) (hindex : index < xs.length) (x : α) :
    MakesVersion m (persistentArraySet v index x m) (xs.set index x) := by
  obtain ⟨base, m₁, hbase, hadds₁, -, chunks, blocks, hshape⟩ := persistentArrayFor_holds h
  obtain ⟨b, hb, hoffset, -⟩ := hshape.chunked.getElem? (by decide) hindex
  obtain ⟨s, hs, helements, hchunk⟩ := hshape.chunk hb
  have hlt : index / persistentArrayChunkSize < chunks.length :=
    (List.getElem?_eq_some_iff.mp hs).1
  have hpow : index / persistentArrayChunkSize < 2 ^ base.height := by
    have hfits := hshape.fits
    rw [hshape.chunkCount] at hfits
    omega
  -- The chunk is copied before it is written.
  let block := b.set (index % persistentArrayChunkSize) x
  let m₂ := m₁.addArray block
  have hadds₂ : m₁.AddsCells m₂ := m₁.addArray_adds block
  have hfresh : m₂.elements (m₁.freshSlice b) = some block := by
    apply m₁.elements_fresh
    rw [Memory.freshSlice, Memory.freshSlice, length_set]
  obtain ⟨address, m₃, hset, hadds₃, htree⟩ :=
    arrayTreeSet_holds (hshape.tree.mono hadds₂.extends) (index / persistentArrayChunkSize)
      (m₁.freshSlice b)
  rw [Nat.mod_eq_of_lt hpow, ← getElem?_set_update hlt] at htree
  have hholds : StoreHolds m₃ { root := some address, height := base.height
                                chunkCount := base.chunkCount, length := base.length }
      (xs.set index x) := by
    refine ⟨_, _, htree, ?_, hshape.chunked.set (by decide) hindex hb x, ?_, ?_, hshape.fits⟩
    · exact (forall₂_set (hshape.mono hadds₂.extends).elements hfresh _).imp
        fun _ _ hs => hadds₃.extends.elements hs
    · rw [length_set]
      exact hshape.chunkCount
    · rw [length_set]
      exact hshape.length
  refine MakesVersion.of_store ?_ (hadds₁.trans (hadds₂.trans hadds₃)) hholds rfl
  exact (run_bind hbase).trans <| (run_bind (chunkOf_run hchunk)).trans <|
    (run_bind (copySlice_run helements)).trans <|
      (run_bind (assignElement_run m₁ b hoffset x)).trans (run_bind hset)

section Append

variable {m₀ m : Memory α} {base : PersistentArray} {chunks : List Slice}
  {blocks : List (List α)} {xs : List α}

theorem append_first (h : StoreShape m base chunks blocks xs) (hzero : base.chunkCount = 0)
    (hadds : m₀.AddsCells m) (x : α) :
    MakesVersion m₀ ((do
      let root ← newNode { chunk := ← newSlice [x] }
      newStore { root := some root, height := 0, chunkCount := 1, length := 1 } :
        MemoryM α ArrayValue) m) (xs ++ [x]) := by
  have hempty : xs = [] := by
    have hblocks := h.blocks_length
    rw [← h.chunkCount, hzero] at hblocks
    rw [← h.chunked.flatten, length_eq_zero_iff.mp hblocks.symm]
    rfl
  subst hempty
  have hadds₁ := m.addArray_adds [x]
  obtain ⟨address, m₂, hnode, hadds₂, htree⟩ := newNode_leaf (m.addArray [x])
    (m.freshSlice [x]) (fun i => [m.freshSlice [x]][i]?) rfl
  have helements := hadds₂.extends.elements (m.elements_fresh [x] rfl)
  have hsize : [x].length ≤ persistentArrayChunkSize := show 1 ≤ 32 by decide
  have hholds : StoreHolds m₂ { root := some address, height := 0, chunkCount := 1, length := 1 }
      ([] ++ [x]) :=
    ⟨[m.freshSlice [x]], [[x]], htree, List.Forall₂.cons helements List.Forall₂.nil,
      Chunked.last [x] Nat.one_pos hsize, rfl, rfl, Nat.le_refl 1⟩
  refine MakesVersion.of_store ?_ (hadds.trans (hadds₁.trans hadds₂)) hholds rfl
  exact (run_bind (newSlice_run m [x])).trans (run_bind hnode)

theorem append_last (h : StoreShape m base chunks blocks xs) (hadds : m₀.AddsCells m)
    {last : Slice} {b : List α} (hb : blocks[blocks.length - 1]? = some b)
    (hlast : m.elements last = some b) (hroom : last.length < persistentArrayChunkSize) (x : α) :
    MakesVersion m₀ ((do
      let updated ← appendElement (← copySlice last) x
      let root ← arrayTreeSet base.root base.height (base.chunkCount - 1) updated
      newStore { root := some root, height := base.height, chunkCount := base.chunkCount
                 length := base.length + 1 } : MemoryM α ArrayValue) m) (xs ++ [x]) := by
  have hindex : base.chunkCount - 1 = blocks.length - 1 := by rw [h.chunkCount, h.blocks_length]
  have hlt : blocks.length - 1 < chunks.length := by
    rw [h.blocks_length]
    exact (List.getElem?_eq_some_iff.mp hb).1
  have hpow : blocks.length - 1 < 2 ^ base.height := by
    have hfits := h.fits
    rw [h.chunkCount] at hfits
    omega
  let m₁ := m.addArray b
  have hcopy : m₁.elements (m.freshSlice b) = some b := m.elements_fresh b rfl
  let m₂ := m₁.addArray (b ++ [x])
  have hadds₂ : m.AddsCells m₂ := (m.addArray_adds b).trans (m₁.addArray_adds (b ++ [x]))
  have hfresh : m₂.elements (m₁.freshSlice (b ++ [x])) = some (b ++ [x]) :=
    m₁.elements_fresh (b ++ [x]) rfl
  obtain ⟨address, m₃, hset, hadds₃, htree⟩ :=
    arrayTreeSet_holds (h.tree.mono hadds₂.extends) (blocks.length - 1)
      (m₁.freshSlice (b ++ [x]))
  rw [Nat.mod_eq_of_lt hpow, ← getElem?_set_update hlt] at htree
  have hlength : b.length < persistentArrayChunkSize := by
    rwa [Memory.elements_length hlast]
  have hholds : StoreHolds m₃ { root := some address, height := base.height
                                chunkCount := base.chunkCount, length := base.length + 1 }
      (xs ++ [x]) := by
    refine ⟨_, _, htree, ?_, h.chunked.append_last hb hlength x, ?_, ?_, h.fits⟩
    · exact (forall₂_set (h.mono hadds₂.extends).elements hfresh _).imp
        fun _ _ hs => hadds₃.extends.elements hs
    · rw [length_set]
      exact h.chunkCount
    · rw [length_append, ← h.length]
      rfl
  refine MakesVersion.of_store ?_ (hadds.trans (hadds₂.trans hadds₃)) hholds rfl
  rw [hindex]
  exact (run_bind (copySlice_run hlast)).trans <|
    (run_bind (appendElement_run hcopy x)).trans (run_bind hset)

theorem append_chunk (h : StoreShape m base chunks blocks xs) {root : Option Nat} {height : Nat}
    (htree : TreeHolds m height root fun i => chunks[i]?) (hroom : base.chunkCount < 2 ^ height)
    (hadds : m₀.AddsCells m) {x : α} (hs : m.elements s = some [x])
    (hfull : ∀ b, blocks[blocks.length - 1]? = some b → b.length = persistentArrayChunkSize) :
    MakesVersion m₀ ((do
      let root ← arrayTreeSet root height base.chunkCount s
      newStore { root := some root, height := height, chunkCount := base.chunkCount + 1
                 length := base.length + 1 } : MemoryM α ArrayValue) m) (xs ++ [x]) := by
  obtain ⟨address, m', hset, hadds', htree'⟩ := arrayTreeSet_holds htree base.chunkCount s
  rw [Nat.mod_eq_of_lt hroom, h.chunkCount, ← getElem?_append_update] at htree'
  have helements : List.Forall₂ (fun s b => m.elements s = some b) (chunks ++ [s])
      (blocks ++ [[x]]) :=
    rel_append h.elements (List.Forall₂.cons hs List.Forall₂.nil)
  have hholds : StoreHolds m' { root := some address, height := height
                                chunkCount := base.chunkCount + 1, length := base.length + 1 }
      (xs ++ [x]) := by
    refine ⟨_, _, htree', helements.imp fun _ _ hs => hadds'.extends.elements hs,
      h.chunked.append_block (by decide) hfull x, ?_, ?_, hroom⟩
    · rw [length_append, ← h.chunkCount]
      rfl
    · rw [length_append, ← h.length]
      rfl
  exact MakesVersion.of_store (run_bind hset) (hadds.trans hadds') hholds rfl

end Append

theorem persistentArrayAppend_holds {m : Memory α} {v : ArrayValue} {xs : List α}
    (h : ValueHolds m v xs) (x : α) :
    MakesVersion m (persistentArrayAppend v x m) (xs ++ [x]) := by
  obtain ⟨base, m₁, hbase, hadds₁, -, chunks, blocks, hshape⟩ := persistentArrayFor_holds h
  rw [persistentArrayAppend, run_bind hbase]
  by_cases hzero : base.chunkCount = 0
  · rw [if_pos hzero]
    exact append_first hshape hzero hadds₁ x
  rw [if_neg hzero]
  have hindex : base.chunkCount - 1 = blocks.length - 1 := by
    rw [hshape.chunkCount, hshape.blocks_length]
  have hlt : blocks.length - 1 < blocks.length := by
    rw [hshape.chunkCount, hshape.blocks_length] at hzero
    omega
  have hb : blocks[blocks.length - 1]? = some blocks[blocks.length - 1] :=
    getElem?_eq_getElem hlt
  obtain ⟨last, hs, helements, hchunk⟩ := hshape.chunk hb
  rw [← hindex] at hchunk
  rw [run_bind (chunkOf_run hchunk)]
  by_cases hroom : last.length < persistentArrayChunkSize
  · rw [if_pos hroom]
    exact append_last hshape hadds₁ hb helements hroom x
  rw [if_neg hroom, run_bind (newSlice_run m₁ [x])]
  have hfull : ∀ b, blocks[blocks.length - 1]? = some b →
      b.length = persistentArrayChunkSize := by
    intro b hb'
    obtain rfl := Option.some.inj (hb.symm.trans hb')
    have hle := hshape.chunked.length_le (mem_of_getElem? hb)
    rw [Memory.elements_length helements] at hle ⊢
    omega
  have hadds₂ := m₁.addArray_adds [x]
  have hfresh : (m₁.addArray [x]).elements (m₁.freshSlice [x]) = some [x] :=
    m₁.elements_fresh [x] rfl
  have hfits := hshape.fits
  by_cases hgrow : base.chunkCount ≥ 1 <<< base.height
  · -- The tree is full and becomes the left half of a higher one.
    obtain ⟨address, m₃, hnode, hadds₃, htree⟩ := (hshape.tree.mono hadds₂.extends).grow (by
      intro i _
      apply getElem?_eq_none
      rw [← hshape.chunkCount]
      omega)
    rw [if_pos hgrow, run_bind hnode]
    have hroom' : base.chunkCount < 2 ^ (base.height + 1) := by
      rw [Nat.pow_succ]
      omega
    exact append_chunk (hshape.mono (hadds₂.trans hadds₃).extends) htree hroom'
      (hadds₁.trans (hadds₂.trans hadds₃)) (hadds₃.extends.elements hfresh) hfull
  · rw [if_neg hgrow]
    exact append_chunk (hshape.mono hadds₂.extends) (hshape.tree.mono hadds₂.extends)
      (by omega) (hadds₁.trans hadds₂) hfresh hfull

end Kryndel
