import Kryndel.Persistent.Chunks
import Mathlib.Data.Nat.Bitwise
import Mathlib.Logic.Function.Basic

/-!
# The chunk trees of persistent arrays

The memory that persistent arrays share: backing arrays of slices, nodes of trees and array
stores. Nodes are allocated and never written; a backing array is written only by the function
that has allocated it. A tree of some height names the chunk of every index by a path of as
many bits.
-/

namespace Kryndel

/-! ## Memory -/

/-- A slice of a backing array. -/
structure Slice where
  array : Nat
  start : Nat
  length : Nat
deriving DecidableEq, Repr

/-- The nil slice. -/
def Slice.nil : Slice := ⟨0, 0, 0⟩

/-- `persistentArrayTree`. -/
structure PersistentArrayTree where
  left : Option Nat := none
  right : Option Nat := none
  chunk : Slice := .nil
deriving DecidableEq, Repr

/-- `persistentArray`. -/
structure PersistentArray where
  once : Bool := false
  root : Option Nat
  height : Nat
  chunkCount : Nat
  flat : Slice := .nil
  length : Nat
deriving DecidableEq, Repr

/-- What arrays share. -/
structure Memory (α : Type) where
  arrays : List (List α) := []
  nodes : List PersistentArrayTree := []
  stores : List PersistentArray := []

/-- Code that reads and extends the memory, and may panic. -/
abbrev MemoryM (α : Type) := StateT (Memory α) Option

variable {α : Type}

/-- The elements of a slice. -/
def Memory.elements (m : Memory α) (s : Slice) : Option (List α) :=
  if s.length = 0 then some []
  else (m.arrays[s.array]?).bind fun values =>
    if s.start + s.length ≤ values.length then some ((values.drop s.start).take s.length)
    else none

/-- The element of a slice at an index. -/
def Memory.element (m : Memory α) (s : Slice) (index : Nat) : Option α :=
  (m.elements s).bind fun values => values[index]?

/-- A fresh backing array. -/
def newSlice (values : List α) : MemoryM α Slice := fun m =>
  some (⟨m.arrays.length, 0, values.length⟩, { m with arrays := m.arrays ++ [values] })

/-- `append([]T(nil), slice...)` -/
def copySlice (s : Slice) : MemoryM α Slice := fun m =>
  (m.elements s).bind fun values => newSlice values m

/-- Assigns to an element of a slice. -/
def assignElement (s : Slice) (index : Nat) (value : α) : MemoryM α Unit := fun m =>
  if index < s.length then
    some ((), { m with
      arrays := m.arrays.modify s.array fun values => values.set (s.start + index) value })
  else none

/-- `append(slice, value)` for a slice that has no other owner. -/
def appendElement (s : Slice) (value : α) : MemoryM α Slice := fun m =>
  (m.elements s).bind fun values => newSlice (values ++ [value]) m

/-- A new node. -/
def newNode (node : PersistentArrayTree) : MemoryM α Nat := fun m =>
  some (m.nodes.length, { m with nodes := m.nodes ++ [node] })

/-! ## Trees -/

/-- The node that a pointer refers to. -/
def Memory.node (m : Memory α) (root : Option Nat) : Option PersistentArrayTree :=
  root.bind fun address => m.nodes[address]?

/-- `arrayTreeChunk` -/
def arrayTreeChunk (m : Memory α) (root : Option Nat) : Nat → Nat → Option Slice
  | 0, _ => (m.node root).map (·.chunk)
  | level + 1, index => do
    let node ← m.node root
    if index &&& (1 <<< level) = 0 then arrayTreeChunk m node.left level index
    else arrayTreeChunk m node.right level index

/-- The node that a pointer refers to, or a new one for a nil pointer. -/
def nodeOrNew : Option Nat → MemoryM α PersistentArrayTree
  | none => do
    let _ ← newNode {}
    return {}
  | some address => fun m => (m.node (some address)).map fun node => (node, m)

/-- `arrayTreeSet` -/
def arrayTreeSet (root : Option Nat) : Nat → Nat → Slice → MemoryM α Nat
  | 0, _, chunk => newNode { chunk := chunk }
  | height + 1, index, chunk => do
    let node ← nodeOrNew root
    if index &&& (1 <<< height) = 0 then
      let left ← arrayTreeSet node.left height index chunk
      newNode { left := some left, right := node.right }
    else
      let right ← arrayTreeSet node.right height index chunk
      newNode { left := node.left, right := some right }

/-- The loop of `arrayTreeHeight`. -/
def arrayTreeHeightLoop (chunkCount height capacity : Nat) (hpos : 0 < capacity) : Nat :=
  if capacity < chunkCount then
    arrayTreeHeightLoop chunkCount (height + 1) (capacity <<< 1) (by rw [Nat.shiftLeft_eq]; omega)
  else height
termination_by chunkCount - capacity
decreasing_by
  rw [Nat.shiftLeft_eq]
  omega

/-- `arrayTreeHeight` -/
def arrayTreeHeight (chunkCount : Nat) : Nat :=
  arrayTreeHeightLoop chunkCount 0 1 Nat.one_pos

/-- `arrayTreeBuild` -/
def arrayTreeBuild (chunks : List Slice) (start : Nat) : Nat → MemoryM α (Option Nat)
  | 0 =>
    match chunks[start]? with
    | none => pure none
    | some chunk => some <$> newNode { chunk := chunk }
  | height + 1 => do
    let left ← arrayTreeBuild chunks start height
    let right ← arrayTreeBuild chunks (start + 1 <<< height) height
    if left.isNone && right.isNone then pure none
    else some <$> newNode { left := left, right := right }

/-! ## Growth -/

/-- The arrays and the nodes that were there are there, and so are the stores but for the
    lists they keep. -/
structure Memory.Extends (m m' : Memory α) : Prop where
  arrays : m.arrays <+: m'.arrays
  nodes : m.nodes <+: m'.nodes
  stores : ∀ (address : Nat) (store : PersistentArray), m.stores[address]? = some store →
    ∃ once flat, m'.stores[address]? = some { store with once := once, flat := flat }

theorem Memory.Extends.refl (m : Memory α) : m.Extends m :=
  ⟨List.prefix_refl _, List.prefix_refl _, fun _ _ h => ⟨_, _, h⟩⟩

theorem Memory.Extends.trans {m m' m'' : Memory α} (h : m.Extends m') (h' : m'.Extends m'') :
    m.Extends m'' where
  arrays := h.arrays.trans h'.arrays
  nodes := h.nodes.trans h'.nodes
  stores address store hstore := by
    obtain ⟨once, flat, hstore⟩ := h.stores address store hstore
    obtain ⟨once', flat', hstore⟩ := h'.stores address _ hstore
    exact ⟨once', flat', hstore⟩

theorem getElem?_of_initial {β : Type} {l l' : List β} (h : l <+: l') {i : Nat} {b : β}
    (hb : l[i]? = some b) : l'[i]? = some b := by
  obtain ⟨rest, rfl⟩ := h
  rw [List.getElem?_append_left (List.getElem?_eq_some_iff.mp hb).1, hb]

variable {m' m : Memory α}

theorem Memory.Extends.elements (h : m.Extends m') {s : Slice} {values : List α}
    (hs : m.elements s = some values) : m'.elements s = some values := by
  rw [Memory.elements] at hs ⊢
  split
  · rename_i hzero
    rwa [if_pos hzero] at hs
  · rename_i hzero
    rw [if_neg hzero] at hs
    obtain ⟨all, hall, hs⟩ := Option.bind_eq_some_iff.mp hs
    rw [getElem?_of_initial h.arrays hall]
    exact hs

/-! ## What a tree holds -/

/-- The chunks that a tree of a height names, by their indexes. -/
def TreeHolds (m : Memory α) : Nat → Option Nat → (Nat → Option Slice) → Prop
  | 0, none, chunks => chunks 0 = none
  | 0, some address, chunks => ∃ node, m.nodes[address]? = some node ∧ chunks 0 = some node.chunk
  | height + 1, none, chunks => ∀ i < 2 ^ (height + 1), chunks i = none
  | height + 1, some address, chunks => ∃ node, m.nodes[address]? = some node ∧
      TreeHolds m height node.left chunks ∧
        TreeHolds m height node.right fun i => chunks (2 ^ height + i)

variable {root : Option Nat} {height : Nat}

theorem TreeHolds.congr {chunks chunks' : Nat → Option Slice} (h : TreeHolds m height root chunks)
    (hsame : ∀ i < 2 ^ height, chunks' i = chunks i) : TreeHolds m height root chunks' := by
  induction height generalizing root chunks chunks' with
  | zero =>
    cases root <;> rw [TreeHolds, hsame 0 Nat.one_pos] <;> exact h
  | succ height ih =>
    cases root with
    | none =>
      intro i hi
      rw [hsame i hi]
      exact h i hi
    | some address =>
      obtain ⟨node, hnode, hleft, hright⟩ := h
      refine ⟨node, hnode, ih hleft ?_, ih hright ?_⟩
      · intro i hi
        exact hsame i (by omega)
      · intro i hi
        exact hsame _ (by omega)

variable {chunks : Nat → Option Slice}

theorem TreeHolds.mono (hm : m.Extends m') (h : TreeHolds m height root chunks) :
    TreeHolds m' height root chunks := by
  induction height generalizing root chunks with
  | zero =>
    cases root with
    | none => exact h
    | some address =>
      obtain ⟨node, hnode, hchunk⟩ := h
      exact ⟨node, getElem?_of_initial hm.nodes hnode, hchunk⟩
  | succ height ih =>
    cases root with
    | none => exact h
    | some address =>
      obtain ⟨node, hnode, hleft, hright⟩ := h
      exact ⟨node, getElem?_of_initial hm.nodes hnode, ih hleft, ih hright⟩

theorem treeHolds_none (m : Memory α) (h : ∀ i < 2 ^ height, chunks i = none) :
    TreeHolds m height none chunks := by
  cases height with
  | zero => exact h 0 Nat.one_pos
  | succ height => exact h

/-! ## Paths -/

theorem highest_bit (index height : Nat) :
    (index &&& (1 <<< height) = 0 ∧ index % 2 ^ (height + 1) = index % 2 ^ height) ∨
      (index &&& (1 <<< height) ≠ 0 ∧
        index % 2 ^ (height + 1) = 2 ^ height + index % 2 ^ height) := by
  have hpow : 0 < 2 ^ height := Nat.two_pow_pos height
  have hand : index &&& (1 <<< height) = (index / 2 ^ height % 2) * 2 ^ height := by
    rw [Nat.shiftLeft_eq, Nat.one_mul, Nat.and_two_pow, Nat.testBit_eq_decide_div_mod_eq]
    rcases Nat.mod_two_eq_zero_or_one (index / 2 ^ height) with h | h <;> rw [h] <;> rfl
  rw [Nat.mod_pow_succ, hand]
  rcases Nat.mod_two_eq_zero_or_one (index / 2 ^ height) with h | h
  · left
    rw [h]
    omega
  · right
    rw [h]
    omega

theorem Memory.node_some {address : Nat} {node : PersistentArrayTree}
    (h : m.nodes[address]? = some node) : m.node (some address) = some node := h

theorem TreeHolds.chunk (h : TreeHolds m height root chunks) {index : Nat} {s : Slice}
    (hs : chunks (index % 2 ^ height) = some s) :
    arrayTreeChunk m root height index = some s := by
  induction height generalizing root chunks with
  | zero =>
    rw [Nat.pow_zero, Nat.mod_one] at hs
    cases root with
    | none =>
      rw [h] at hs
      cases hs
    | some address =>
      obtain ⟨node, hnode, hchunk⟩ := h
      rw [arrayTreeChunk, Memory.node_some hnode, ← hs, hchunk]
      rfl
  | succ height ih =>
    cases root with
    | none =>
      rw [h _ (Nat.mod_lt _ (Nat.two_pow_pos _))] at hs
      cases hs
    | some address =>
      obtain ⟨node, hnode, hleft, hright⟩ := h
      rw [arrayTreeChunk, Memory.node_some hnode]
      show (if index &&& (1 <<< height) = 0 then _ else _) = _
      rcases highest_bit index height with ⟨hbit, hmod⟩ | ⟨hbit, hmod⟩
      · rw [if_pos hbit]
        rw [hmod] at hs
        exact ih hleft hs
      · rw [if_neg hbit]
        rw [hmod] at hs
        exact ih hright hs

/-! ## Allocation -/

/-- Memory to which only arrays and nodes are added. -/
structure Memory.AddsCells (m m' : Memory α) : Prop where
  arrays : m.arrays <+: m'.arrays
  nodes : m.nodes <+: m'.nodes
  stores : m'.stores = m.stores

theorem Memory.AddsCells.refl (m : Memory α) : m.AddsCells m :=
  ⟨List.prefix_refl _, List.prefix_refl _, rfl⟩

theorem Memory.AddsCells.trans {m m' m'' : Memory α} (h : m.AddsCells m')
    (h' : m'.AddsCells m'') : m.AddsCells m'' :=
  ⟨h.arrays.trans h'.arrays, h.nodes.trans h'.nodes, h'.stores.trans h.stores⟩

theorem Memory.AddsCells.extends (h : m.AddsCells m') : m.Extends m' where
  arrays := h.arrays
  nodes := h.nodes
  stores address store hstore := by
    rw [h.stores]
    exact ⟨_, _, hstore⟩

theorem newNode_adds (m : Memory α) (node : PersistentArrayTree) :
    ∃ m', newNode node m = some (m.nodes.length, m') ∧ m.AddsCells m' ∧
      m'.nodes[m.nodes.length]? = some node :=
  ⟨_, rfl, ⟨List.prefix_refl _, List.prefix_append _ _, rfl⟩, by simp⟩

theorem newNode_leaf (m : Memory α) (s : Slice) (chunks : Nat → Option Slice)
    (hs : chunks 0 = some s) : ∃ address m', newNode { chunk := s } m = some (address, m') ∧
      m.AddsCells m' ∧ TreeHolds m' 0 (some address) chunks := by
  obtain ⟨m', hrun, hadds, hnode⟩ := newNode_adds m { chunk := s }
  exact ⟨_, m', hrun, hadds, _, hnode, hs⟩

theorem newNode_inner {m : Memory α} {height : Nat} {left right : Option Nat}
    {chunks : Nat → Option Slice} (hleft : TreeHolds m height left chunks)
    (hright : TreeHolds m height right fun i => chunks (2 ^ height + i)) :
    ∃ address m', newNode { left := left, right := right } m = some (address, m') ∧
      m.AddsCells m' ∧ TreeHolds m' (height + 1) (some address) chunks := by
  obtain ⟨m', hrun, hadds, hnode⟩ := newNode_adds m { left := left, right := right }
  exact ⟨_, m', hrun, hadds, _, hnode, hleft.mono hadds.extends, hright.mono hadds.extends⟩

theorem run_bind {β γ : Type} {x : MemoryM α β} {f : β → MemoryM α γ} {b : β}
    (h : x m = some (b, m')) : (x >>= f) m = f b m' := by
  show (x m).bind _ = _
  rw [h]
  rfl

theorem run_map {β γ : Type} {x : MemoryM α β} {f : β → γ} {b : β} (h : x m = some (b, m')) :
    (f <$> x) m = some (f b, m') := by
  rw [map_eq_pure_bind, run_bind h]
  rfl

theorem nodeOrNew_holds (h : TreeHolds m (height + 1) root chunks) :
    ∃ node m', nodeOrNew root m = some (node, m') ∧ m.AddsCells m' ∧
      TreeHolds m' height node.left chunks ∧
        TreeHolds m' height node.right fun i => chunks (2 ^ height + i) := by
  cases root with
  | none =>
    obtain ⟨m', hrun, hadds, -⟩ := newNode_adds m {}
    refine ⟨{}, m', ?_, hadds, treeHolds_none m' ?_, treeHolds_none m' ?_⟩
    · rw [nodeOrNew, run_bind hrun]
      rfl
    · intro i hi
      exact h i (by omega)
    · intro i hi
      exact h _ (by omega)
  | some address =>
    obtain ⟨node, hnode, hleft, hright⟩ := h
    refine ⟨node, m, ?_, Memory.AddsCells.refl m, hleft, hright⟩
    show (m.node (some address)).map _ = _
    rw [Memory.node_some hnode]
    rfl

theorem arrayTreeSet_holds (h : TreeHolds m height root chunks) (index : Nat) (s : Slice) :
    ∃ address m', arrayTreeSet root height index s m = some (address, m') ∧ m.AddsCells m' ∧
      TreeHolds m' height (some address)
        (Function.update chunks (index % 2 ^ height) (some s)) := by
  induction height generalizing m root chunks with
  | zero =>
    rw [Nat.pow_zero, Nat.mod_one]
    exact newNode_leaf m s _ (Function.update_self _ _ _)
  | succ height ih =>
    obtain ⟨node, m₁, hrun₁, hadds₁, hleft, hright⟩ := nodeOrNew_holds h
    rw [arrayTreeSet, run_bind hrun₁]
    rcases highest_bit index height with ⟨hbit, hmod⟩ | ⟨hbit, hmod⟩
    · obtain ⟨left, m₂, hrun₂, hadds₂, hleft'⟩ := ih hleft
      obtain ⟨address, m₃, hrun₃, hadds₃, hholds⟩ :=
        newNode_inner hleft' ((hright.mono hadds₂.extends).congr fun i hi =>
          Function.update_of_ne (by omega) _ _)
      refine ⟨address, m₃, ?_, hadds₁.trans (hadds₂.trans hadds₃), ?_⟩
      · rw [if_pos hbit, run_bind hrun₂, hrun₃]
      · rw [hmod]
        exact hholds
    · obtain ⟨right, m₂, hrun₂, hadds₂, hright'⟩ := ih hright
      obtain ⟨address, m₃, hrun₃, hadds₃, hholds⟩ := @newNode_inner _ m₂ height node.left
        (some right) (Function.update chunks (2 ^ height + index % 2 ^ height) (some s))
        ((hleft.mono hadds₂.extends).congr fun i hi => Function.update_of_ne (by omega) _ _)
        (hright'.congr fun i hi => by
          by_cases hi : i = index % 2 ^ height
          · subst hi
            rw [Function.update_self, Function.update_self]
          · rw [Function.update_of_ne hi, Function.update_of_ne (by omega)])
      refine ⟨address, m₃, ?_, hadds₁.trans (hadds₂.trans hadds₃), ?_⟩
      · rw [if_neg hbit, run_bind hrun₂, hrun₃]
      · rw [hmod]
        exact hholds

/-! ## Building -/

theorem arrayTreeBuild_holds (chunks : List Slice) (start height : Nat) (m : Memory α) :
    ∃ root m', arrayTreeBuild chunks start height m = some (root, m') ∧ m.AddsCells m' ∧
      (root = none → ∀ i < 2 ^ height, chunks[start + i]? = none) ∧
        TreeHolds m' height root fun i => chunks[start + i]? := by
  induction height generalizing start m with
  | zero =>
    cases hchunk : chunks[start]? with
    | none =>
      refine ⟨none, m, ?_, Memory.AddsCells.refl m, ?_, hchunk⟩
      · rw [arrayTreeBuild, hchunk]
        rfl
      · intro _ i hi
        obtain rfl : i = 0 := by omega
        exact hchunk
    | some s =>
      obtain ⟨address, m', hrun, hadds, hholds⟩ :=
        newNode_leaf m s (fun i => chunks[start + i]?) hchunk
      refine ⟨some address, m', ?_, hadds, by simp, hholds⟩
      rw [arrayTreeBuild, hchunk]
      exact run_map hrun
  | succ height ih =>
    have hshift : start + 1 <<< height = start + 2 ^ height := by
      rw [Nat.shiftLeft_eq, Nat.one_mul]
    obtain ⟨left, m₁, hrun₁, hadds₁, hnone₁, hleft⟩ := ih start m
    obtain ⟨right, m₂, hrun₂, hadds₂, hnone₂, hright⟩ := ih (start + 2 ^ height) m₁
    have hright' : TreeHolds m₂ height right fun i => chunks[start + (2 ^ height + i)]? :=
      hright.congr fun i _ => by rw [Nat.add_assoc]
    rw [arrayTreeBuild, run_bind hrun₁, hshift, run_bind hrun₂]
    by_cases hboth : (left.isNone && right.isNone) = true
    · -- There is no chunk on either side.
      rw [Bool.and_eq_true, Option.isNone_iff_eq_none, Option.isNone_iff_eq_none] at hboth
      have hnone : ∀ i < 2 ^ (height + 1), chunks[start + i]? = none := by
        intro i hi
        by_cases hlt : i < 2 ^ height
        · exact hnone₁ hboth.1 i hlt
        · have hnone := hnone₂ hboth.2 (i - 2 ^ height) (by omega)
          rwa [show start + 2 ^ height + (i - 2 ^ height) = start + i by omega] at hnone
      refine ⟨none, m₂, ?_, hadds₁.trans hadds₂, fun _ => hnone, treeHolds_none m₂ hnone⟩
      rw [hboth.1, hboth.2]
      rfl
    · obtain ⟨address, m₃, hrun₃, hadds₃, hholds⟩ :=
        newNode_inner (hleft.mono hadds₂.extends) hright'
      refine ⟨some address, m₃, ?_, hadds₁.trans (hadds₂.trans hadds₃), by simp, hholds⟩
      rw [if_neg hboth]
      exact run_map hrun₃

theorem arrayTreeHeightLoop_fits (chunkCount height capacity : Nat) (hpos : 0 < capacity)
    (hcapacity : capacity = 2 ^ height) :
    chunkCount ≤ 2 ^ arrayTreeHeightLoop chunkCount height capacity hpos := by
  fun_induction arrayTreeHeightLoop chunkCount height capacity hpos with
  | case1 height capacity hpos hlt ih =>
    apply ih
    rw [Nat.shiftLeft_eq, hcapacity, ← Nat.pow_succ]
  | case2 height capacity hpos hle => omega

theorem arrayTreeHeight_fits (chunkCount : Nat) : chunkCount ≤ 2 ^ arrayTreeHeight chunkCount :=
  arrayTreeHeightLoop_fits chunkCount 0 1 Nat.one_pos rfl

theorem TreeHolds.grow (h : TreeHolds m height root chunks)
    (hnone : ∀ i < 2 ^ height, chunks (2 ^ height + i) = none) :
    ∃ address m', newNode { left := root } m = some (address, m') ∧ m.AddsCells m' ∧
      TreeHolds m' (height + 1) (some address) chunks :=
  newNode_inner h (treeHolds_none m hnone)

end Kryndel
