import Kryndel.PE.References
import Kryndel.Systems.Run

/-!
# Labels of the assembler

Jumps and calls name their targets by labels. A label that is bound already is written into
the code at once; what refers to another one waits in its list of patches until it is bound.
-/

namespace Kryndel.PE.Labels

open Patches Systems List

/-- `machineLabel`. A label that is not bound yet has a negative position. -/
structure MachineLabel where
  position : Int
  patches : List Nat
deriving DecidableEq, Repr, Inhabited

/-- What `directMachine` keeps of its code and its labels. The last three fields are not part of
    the source: the bytes as they were appended, the places that displacements were left out at
    with their labels, and the displacements that were written. -/
structure DirectMachine where
  code : List UInt8 := []
  labels : List MachineLabel := []
  windowsABI : Bool := false
  windowsStackDepth : Int := 0
  emitted : List UInt8 := []
  slots : List (Nat × Nat) := []
  writes : List (Patch UInt8) := []

namespace DirectMachine

/-! ## The operations -/

def append (m : DirectMachine) (bytes : List UInt8) : DirectMachine :=
  { m with code := m.code ++ bytes, emitted := m.emitted ++ bytes }

/-- `uint32(int32(delta))` in little-endian order. -/
def displacement (position : Int) (patch : Nat) : Patch UInt8 :=
  ⟨patch, Wire.littleEndian 4 ((position - (patch + 4)) % 2 ^ 32).toNat⟩

/-- `binary.LittleEndian.PutUint32(m.code[patch:patch+4], …)`. -/
def write (m : DirectMachine) (p : Patch UInt8) : DirectMachine :=
  { m with code := put m.code p, writes := m.writes ++ [p] }

/-- `newLabel`. -/
def newLabel (m : DirectMachine) : DirectMachine :=
  { m with labels := m.labels ++ [⟨-1, []⟩] }

/-- The loop of `bind`. -/
def bindPatches (position : Int) (m : DirectMachine) : List Nat → Except String DirectMachine
  | [] => .ok m
  | patch :: patches =>
    let delta := position - (patch + 4)
    if delta < -2 ^ 31 ∨ delta > 2 ^ 31 - 1 then
      .error "direct ELF internal error: jump is out of range"
    else bindPatches position (m.write (displacement position patch)) patches

/-- `bind`. -/
def bind (m : DirectMachine) (label : Int) : Except String DirectMachine :=
  match m.labels[label.toNat]? with
  | none => .error "direct ELF internal error: invalid label binding"
  | some l =>
    if label < 0 ∨ 0 ≤ l.position then .error "direct ELF internal error: invalid label binding"
    else
      let position : Int := m.code.length
      bindPatches position
        { m with labels := m.labels.set label.toNat { l with position := position } } l.patches

/-- `emitLabelDisplacement`. A label that is bound already is written without a look at how far
    away it is. -/
def emitLabelDisplacement (m : DirectMachine) (label : Int) : Except String DirectMachine :=
  match m.labels[label.toNat]? with
  | none => .error "direct ELF internal error: invalid jump label"
  | some l =>
    if label < 0 then .error "direct ELF internal error: invalid jump label"
    else
      let patch := m.code.length
      let m := m.append [0, 0, 0, 0]
      let m := { m with slots := m.slots ++ [(patch, label.toNat)] }
      if 0 ≤ l.position then .ok (m.write (displacement l.position patch))
      else .ok { m with
        labels := m.labels.set label.toNat { l with patches := l.patches ++ [patch] } }

/-- `emitJump`. -/
def emitJump (m : DirectMachine) (label : Int) : Except String DirectMachine :=
  (m.append [0xe9]).emitLabelDisplacement label

/-- `emitConditionalJump`. -/
def emitConditionalJump (m : DirectMachine) (op : UInt8) (label : Int) :
    Except String DirectMachine :=
  (m.append [0x0f, op]).emitLabelDisplacement label

/-- How far `emitLabelCall` moves the stack pointer on Windows. -/
def adjust (m : DirectMachine) : UInt8 :=
  UInt8.ofNat (32 + (16 - m.windowsStackDepth.tmod 16).tmod 16).toNat

/-- The bytes of `emitLabelCall` in front of the displacement. -/
def callLead (m : DirectMachine) : List UInt8 :=
  (if m.windowsABI then [0x48, 0x83, 0xec, m.adjust] else []) ++ [0xe8]

/-- `emitLabelCall`. -/
def emitLabelCall (m : DirectMachine) (label : Int) : Except String DirectMachine := do
  let called ← (m.append m.callLead).emitLabelDisplacement label
  .ok (if m.windowsABI then called.append [0x48, 0x83, 0xc4, m.adjust] else called)

/-- The loop of `validateLabelReferences`. -/
def validateLabels : Nat → List MachineLabel → Except String Unit
  | _, [] => .ok ()
  | index, label :: labels =>
    if label.position < 0 ∧ 0 < label.patches.length then
      .error s!"direct machine internal error: label {index} has unresolved references"
    else validateLabels (index + 1) labels

/-- `validateLabelReferences`. -/
def validateLabelReferences (m : DirectMachine) : Except String Unit := validateLabels 0 m.labels

end DirectMachine

open DirectMachine

/-- What is done to a machine. -/
inductive Operation where
  | newLabel
  | emit (bytes : List UInt8)
  | windows (abi : Bool) (stackDepth : Int)
  | jump (label : Int)
  | conditionalJump (op : UInt8) (label : Int)
  | call (label : Int)
  | bind (label : Int)

def Operation.apply (m : DirectMachine) : Operation → Except String DirectMachine
  | newLabel => .ok m.newLabel
  | emit bytes => .ok (m.append bytes)
  | windows abi stackDepth => .ok { m with windowsABI := abi, windowsStackDepth := stackDepth }
  | jump label => m.emitJump label
  | conditionalJump op label => m.emitConditionalJump op label
  | call label => m.emitLabelCall label
  | bind label => m.bind label

/-- One operation. An error ends the emission. -/
def step (m : DirectMachine) (op : Operation) : Option DirectMachine := (op.apply m).toOption

/-- A displacement emitted now reaches the label, if the label is bound already. -/
def Reaches (m : DirectMachine) (label : Int) : Prop :=
  ∀ l, m.labels[label.toNat]? = some l → 0 ≤ l.position →
    (m.code.length : Int) + 4 - l.position ≤ 2 ^ 31

/-- No reference to a label that is bound already goes back by more than a signed number of
    32 bits can. -/
def Near (m : DirectMachine) : Operation → Prop
  | .jump label => Reaches (m.append [0xe9]) label
  | .conditionalJump op label => Reaches (m.append [0x0f, op]) label
  | .call label => Reaches (m.append m.callLead) label
  | _ => True

/-- Every slot leads to its label and has been written once, and no other byte has changed. -/
structure Exact (m : DirectMachine) : Prop where
  leads : ∀ slot ∈ m.slots, ∃ l, m.labels[slot.2]? = some l ∧ 0 ≤ l.position ∧
    slot.1 + 4 ≤ m.code.length ∧ i32At m.code slot.1 = l.position - (slot.1 + 4)
  once : ∀ slot ∈ m.slots, (m.writes.map Patch.start).count slot.1 = 1
  onlySlots : ∀ p ∈ m.writes, p.content.length = 4 ∧ ∃ slot ∈ m.slots, p.start = slot.1
  length : m.code.length = m.emitted.length
  others : ∀ i : Nat, (∀ slot ∈ m.slots, i < slot.1 ∨ slot.1 + 4 ≤ i) →
    m.code[i]? = m.emitted[i]?

/-! ## What is pending -/

/-- The places that wait for a label. -/
def waiting (l : MachineLabel) : List Nat := if l.position < 0 then l.patches else []

def pending (labels : List MachineLabel) : List Nat := labels.flatMap waiting

theorem count_pending_set {labels : List MachineLabel} {k : Nat} {l : MachineLabel}
    (h : labels[k]? = some l) (l' : MachineLabel) (s : Nat) :
    (pending (labels.set k l')).count s + (waiting l).count s =
      (pending labels).count s + (waiting l').count s := by
  unfold pending
  induction labels generalizing k with
  | nil => cases h
  | cons x labels ih =>
    cases k with
    | zero =>
      cases h
      simp only [set_cons_zero, flatMap_cons, count_append]
      omega
    | succ k =>
      have hrest := ih h
      simp only [set_cons_succ, flatMap_cons, count_append] at hrest ⊢
      omega

theorem pending_validated {labels : List MachineLabel} {index : Nat}
    (h : validateLabels index labels = .ok ()) : pending labels = [] := by
  induction labels generalizing index with
  | nil => rfl
  | cons l labels ih =>
    rw [validateLabels] at h
    split at h
    · cases h
    · next hresolved =>
      have hwaiting : waiting l = [] := by
        unfold waiting
        split
        · next hopen =>
          exact length_eq_zero_iff.mp (Nat.eq_zero_of_not_pos fun hpos =>
            hresolved ⟨hopen, hpos⟩)
        · rfl
      rw [pending, flatMap_cons, hwaiting]
      exact ih h

theorem getElem?_set_cases {labels : List MachineLabel} {k k' : Nat} {l' x : MachineLabel}
    (h : (labels.set k' l')[k]? = some x) : (k = k' ∧ x = l') ∨ labels[k]? = some x := by
  rw [getElem?_set] at h
  split at h
  · next hk =>
    split at h
    · exact .inl ⟨hk.symm, (Option.some.inj h).symm⟩
    · cases h
  · exact .inr h

/-- A label is bound to a place. -/
def Bound (labels : List MachineLabel) (k : Nat) (position : Int) : Prop :=
  ∃ l, labels[k]? = some l ∧ l.position = position ∧ 0 ≤ position

theorem Bound.set {labels : List MachineLabel} {k k' : Nat} {position : Int}
    {l l' : MachineLabel} (h : labels[k']? = some l)
    (hkeep : 0 ≤ l.position → l'.position = l.position) (hbound : Bound labels k position) :
    Bound (labels.set k' l') k position := by
  obtain ⟨x, hx, rfl, hpos⟩ := hbound
  by_cases hk : k' = k
  · subst hk
    obtain rfl := Option.some.inj (h.symm.trans hx)
    have hlt := (List.getElem?_eq_some_iff.mp h).1
    exact ⟨l', by rw [getElem?_set_self hlt], hkeep hpos, hpos⟩
  · exact ⟨x, by rw [getElem?_set_ne hk, hx], rfl, hpos⟩

/-! ## The invariant -/

/-- What the machine has done, and what it still has to do. -/
structure Tracks (m : DirectMachine) : Prop where
  code : m.code = puts m.emitted m.writes
  apart : m.slots.Pairwise fun a b => a.1 + 4 ≤ b.1
  inside : ∀ slot ∈ m.slots, slot.1 + 4 ≤ m.emitted.length
  counts : ∀ s, (m.writes.map Patch.start).count s + (pending m.labels).count s =
    (m.slots.map Prod.fst).count s
  waits : ∀ (k : Nat) l, m.labels[k]? = some l → ∀ p ∈ l.patches, (p, k) ∈ m.slots
  before : ∀ k position, Bound m.labels k position → position ≤ m.emitted.length
  written : ∀ p ∈ m.writes, p.content.length = 4 ∧ ∃ k position, (p.start, k) ∈ m.slots ∧
    Bound m.labels k position ∧
    Int.bmod (Wire.ofLittleEndian p.content) (2 ^ 32) = position - (p.start + 4)

theorem displacement_decodes {position : Int} {patch : Nat}
    (hlow : -2 ^ 31 ≤ position - (patch + 4)) (hhigh : position - (patch + 4) ≤ 2 ^ 31 - 1) :
    Int.bmod (Wire.ofLittleEndian (displacement position patch).content) (2 ^ 32) =
      position - (patch + 4) := by
  have hcast := Int.toNat_of_nonneg
    (Int.emod_nonneg (position - (patch + 4)) (show (2 ^ 32 : Int) ≠ 0 by decide))
  rw [displacement, Wire.ofLittleEndian_littleEndian]
  rw [Int.bmod_def]
  omega

theorem Tracks.stops {m : DirectMachine} (h : Tracks m) :
    ∀ p ∈ m.writes, p.stop ≤ m.emitted.length := by
  intro p hp
  obtain ⟨hsize, k, _, hslot, _⟩ := h.written p hp
  have hinside := h.inside _ hslot
  rw [Patch.stop, hsize]
  exact hinside

theorem Tracks.length {m : DirectMachine} (h : Tracks m) :
    m.code.length = m.emitted.length := by
  rw [h.code, length_puts h.stops]

theorem puts_append {l l' : List UInt8} {ps : List (Patch UInt8)}
    (h : ∀ p ∈ ps, p.stop ≤ l.length) : puts (l ++ l') ps = puts l ps ++ l' := by
  induction ps generalizing l with
  | nil => rfl
  | cons p ps ih =>
    obtain ⟨hp, hps⟩ := forall_mem_cons.mp h
    have hput : put (l ++ l') p = put l p ++ l' := by
      have hstart : p.start ≤ l.length := Nat.le_trans (Nat.le_add_right _ _) hp
      rw [put, put, take_append_of_le_length hstart, drop_append_of_le_length hp,
        append_assoc, append_assoc, append_assoc]
    rw [puts, foldl_cons, hput]
    exact ih fun q hq => (length_put hp).symm ▸ hps q hq

theorem Tracks.append {m : DirectMachine} (h : Tracks m) (bytes : List UInt8) :
    Tracks (m.append bytes) := by
  have hle : m.emitted.length ≤ (m.emitted ++ bytes).length := by simp
  refine ⟨?_, h.apart, ?_, h.counts, h.waits, ?_, h.written⟩
  · exact (congrArg (· ++ bytes) h.code).trans (puts_append h.stops).symm
  · exact fun slot hslot => Nat.le_trans (h.inside slot hslot) hle
  · intro k position hbound
    have hbefore := h.before k position hbound
    simp only [DirectMachine.append]
    omega

theorem Tracks.newLabel {m : DirectMachine} (h : Tracks m) : Tracks m.newLabel := by
  -- a new label is not bound, and nothing waits for it
  have hnew : ∀ (k : Nat) l, (m.labels ++ [(⟨-1, []⟩ : MachineLabel)])[k]? = some l →
      m.labels[k]? = some l ∨ l = ⟨-1, []⟩ := by
    intro k l hl
    rw [getElem?_append] at hl
    split at hl
    · exact .inl hl
    · exact .inr (mem_singleton.mp (mem_of_getElem? hl))
  refine ⟨h.code, h.apart, h.inside, ?_, ?_, ?_, ?_⟩
  · intro s
    have hpending : pending m.newLabel.labels = pending m.labels := by
      simp [pending, DirectMachine.newLabel, waiting]
    rw [hpending]
    exact h.counts s
  · intro k l hl p hp
    rcases hnew k l hl with hold | rfl
    · exact h.waits k l hold p hp
    · cases hp
  · intro k position hbound
    obtain ⟨l, hl, rfl, hpos⟩ := hbound
    rcases hnew k l hl with hold | rfl
    · exact h.before k _ ⟨l, hold, rfl, hpos⟩
    · exact absurd hpos (by decide)
  · intro p hp
    obtain ⟨hsize, k, position, hslot, ⟨l, hl, hbound⟩, hdecodes⟩ := h.written p hp
    have hlt := (List.getElem?_eq_some_iff.mp hl).1
    exact ⟨hsize, k, position, hslot, ⟨l, (getElem?_append_left hlt).trans hl, hbound⟩,
      hdecodes⟩

theorem bindPatches_ok {position : Int} {patches : List Nat} {m m' : DirectMachine}
    (h : bindPatches position m patches = .ok m') :
    m' = { m with
      code := puts m.code (patches.map (displacement position))
      writes := m.writes ++ patches.map (displacement position) } ∧
    ∀ p ∈ patches, -2 ^ 31 ≤ position - (p + 4) ∧ position - (p + 4) ≤ 2 ^ 31 - 1 := by
  induction patches generalizing m with
  | nil =>
    cases h
    refine ⟨?_, by simp⟩
    simp [puts]
  | cons patch patches ih =>
    rw [bindPatches] at h
    split at h
    · cases h
    · next hrange =>
      obtain ⟨hm', hrest⟩ := ih h
      refine ⟨?_, forall_mem_cons.mpr ⟨by omega, hrest⟩⟩
      rw [hm']
      simp [write, puts]

theorem Tracks.bind {m m' : DirectMachine} {label : Int} (h : Tracks m)
    (hbind : m.bind label = .ok m') : Tracks m' := by
  rw [DirectMachine.bind] at hbind
  split at hbind
  · cases hbind
  · next l hl =>
    split at hbind
    · cases hbind
    · next hopen =>
      have hopen : l.position < 0 := by omega
      obtain ⟨hm', hrange⟩ := bindPatches_ok hbind
      have hlt := (List.getElem?_eq_some_iff.mp hl).1
      have hbound : Bound (m.labels.set label.toNat { l with position := m.code.length })
          label.toNat m.code.length :=
        ⟨_, getElem?_set_self hlt, rfl, Int.natCast_nonneg _⟩
      subst hm'
      refine ⟨?_, h.apart, h.inside, ?_, ?_, ?_, ?_⟩
      · simp only [puts, foldl_append]
        rw [h.code, puts]
      · -- the places of the label are written now and wait no longer
        intro s
        have hset := count_pending_set hl { l with position := (m.code.length : Int) } s
        have hold : waiting l = l.patches := if_pos hopen
        have hnew : waiting { l with position := (m.code.length : Int) } = [] :=
          if_neg (Int.not_lt.mpr (Int.natCast_nonneg _))
        have hstarts : (l.patches.map (displacement m.code.length)).map Patch.start =
            l.patches := by
          rw [map_map]
          exact map_id _
        have hcounts := h.counts s
        rw [hold, hnew, count_nil] at hset
        simp only [map_append, count_append, hstarts]
        omega
      · intro k l' hl' p hp
        rcases getElem?_set_cases hl' with ⟨rfl, rfl⟩ | hold
        · exact h.waits _ l hl p hp
        · exact h.waits k l' hold p hp
      · intro k position hbefore
        obtain ⟨l', hl', rfl, hpos⟩ := hbefore
        rcases getElem?_set_cases hl' with ⟨-, rfl⟩ | hold
        · exact Int.ofNat_le.mpr (Nat.le_of_eq h.length)
        · exact h.before k _ ⟨l', hold, rfl, hpos⟩
      · intro p hp
        rcases mem_append.mp hp with hold | hnew
        · obtain ⟨hsize, k, position, hslot, hb, hdecodes⟩ := h.written p hold
          exact ⟨hsize, k, position, hslot, hb.set hl (fun hpos => by omega), hdecodes⟩
        · obtain ⟨patch, hpatch, rfl⟩ := mem_map.mp hnew
          obtain ⟨hlow, hhigh⟩ := hrange patch hpatch
          exact ⟨Wire.length_littleEndian _ _, label.toNat, m.code.length,
            h.waits _ l hl patch hpatch, hbound, displacement_decodes hlow hhigh⟩

theorem Tracks.reference {m m' : DirectMachine} {label : Int} (h : Tracks m)
    (hreaches : Reaches m label) (hemit : m.emitLabelDisplacement label = .ok m') :
    Tracks m' := by
  have hlength := h.length
  rw [emitLabelDisplacement] at hemit
  split at hemit
  · cases hemit
  · next l hl =>
    split at hemit
    · cases hemit
    · have hmore := h.append [0, 0, 0, 0]
      -- the new slot is behind all others
      have hapart : (m.slots ++ [(m.code.length, label.toNat)]).Pairwise
          fun a b => a.1 + 4 ≤ b.1 := by
        refine pairwise_append.mpr ⟨h.apart, pairwise_singleton _ _, ?_⟩
        intro a ha b hb
        rw [mem_singleton.mp hb, hlength]
        exact h.inside a ha
      have hinside : ∀ slot ∈ m.slots ++ [(m.code.length, label.toNat)],
          slot.1 + 4 ≤ (m.emitted ++ [0, 0, 0, 0]).length := by
        intro slot hslot
        rcases mem_append.mp hslot with hold | hnew
        · exact hmore.inside slot hold
        · rw [mem_singleton.mp hnew, hlength, length_append]
          exact Nat.le_refl _
      have hlast : (m.code.length, label.toNat) ∈
          m.slots ++ [(m.code.length, label.toNat)] := by simp
      split at hemit
      · next hpos =>
        cases hemit
        have hnear := hreaches l hl hpos
        have hbefore := h.before _ _ ⟨l, hl, rfl, hpos⟩
        refine ⟨?_, hapart, hinside, ?_, ?_, hmore.before, ?_⟩
        · simp only [write, puts, foldl_append, foldl_cons, foldl_nil]
          rw [hmore.code, puts]
        · intro s
          have hcounts := h.counts s
          simp only [write, DirectMachine.append, map_append, count_append,
            map_cons, map_nil, displacement]
          omega
        · exact fun k l' hl' p hp => mem_append_left _ (h.waits k l' hl' p hp)
        · intro p hp
          rcases mem_append.mp hp with hold | hnew
          · obtain ⟨hsize, k, position, hslot, hrest⟩ := h.written p hold
            exact ⟨hsize, k, position, mem_append_left _ hslot, hrest⟩
          · rw [mem_singleton.mp hnew]
            exact ⟨Wire.length_littleEndian _ _, label.toNat, l.position, hlast,
              ⟨l, hl, rfl, hpos⟩, displacement_decodes (by omega) (by omega)⟩
      · next hopen =>
        cases hemit
        have hopen : l.position < 0 := by omega
        refine ⟨hmore.code, hapart, hinside, ?_, ?_, ?_, ?_⟩
        · intro s
          have hcounts := h.counts s
          have hset := count_pending_set hl
            { l with patches := l.patches ++ [m.code.length] } s
          have hold : waiting l = l.patches := if_pos hopen
          have hnew : waiting { l with patches := l.patches ++ [m.code.length] } =
              l.patches ++ [m.code.length] := if_pos hopen
          rw [hold, hnew, count_append] at hset
          simp only [DirectMachine.append, map_append, count_append, map_cons,
            map_nil]
          omega
        · intro k l' hl' p hp
          rcases getElem?_set_cases hl' with ⟨rfl, rfl⟩ | hsame
          · rcases mem_append.mp hp with hold | hnew
            · exact mem_append_left _ (h.waits _ l hl p hold)
            · rw [mem_singleton.mp hnew]
              exact hlast
          · exact mem_append_left _ (h.waits k l' hsame p hp)
        · intro k position hbefore
          obtain ⟨l', hl', rfl, hpos⟩ := hbefore
          rcases getElem?_set_cases hl' with ⟨-, rfl⟩ | hsame
          · exact absurd hpos (Int.not_le.mpr hopen)
          · exact hmore.before k _ ⟨l', hsame, rfl, hpos⟩
        · intro p hp
          obtain ⟨hsize, k, position, hslot, hb, hdecodes⟩ := h.written p hp
          exact ⟨hsize, k, position, mem_append_left _ hslot, hb.set hl fun _ => rfl,
            hdecodes⟩

theorem Tracks.apply {m m' : DirectMachine} {op : Operation} (h : Tracks m) (hnear : Near m op)
    (happly : op.apply m = .ok m') : Tracks m' := by
  cases op with
  | newLabel =>
    cases happly
    exact h.newLabel
  | emit bytes =>
    cases happly
    exact h.append bytes
  | windows abi stackDepth =>
    cases happly
    exact ⟨h.code, h.apart, h.inside, h.counts, h.waits, h.before, h.written⟩
  | jump label => exact (h.append _).reference hnear happly
  | conditionalJump op label => exact (h.append _).reference hnear happly
  | call label =>
    obtain ⟨called, hcalled, happly⟩ := bind_eq_ok happly
    have htracks := (h.append _).reference hnear hcalled
    cases happly
    split
    · exact htracks.append _
    · exact htracks
  | bind label => exact h.bind happly

/-! ## Every sequence of operations -/

theorem slots_apart {slots : List (Nat × Nat)} (h : slots.Pairwise fun a b => a.1 + 4 ≤ b.1)
    {a b : Nat × Nat} (ha : a ∈ slots) (hb : b ∈ slots) :
    a = b ∨ a.1 + 4 ≤ b.1 ∨ b.1 + 4 ≤ a.1 := by
  induction h with
  | nil => cases ha
  | cons hx _ ih =>
    rcases mem_cons.mp ha with rfl | ha' <;> rcases mem_cons.mp hb with rfl | hb'
    · exact .inl rfl
    · exact .inr (.inl (hx b hb'))
    · exact .inr (.inr (hx a ha'))
    · exact ih ha' hb'

theorem Tracks.exact {m : DirectMachine} (h : Tracks m)
    (hvalid : m.validateLabelReferences = .ok ()) : Exact m := by
  have hnodup : (m.slots.map Prod.fst).Nodup := by
    rw [List.Nodup, pairwise_map]
    exact h.apart.imp fun hab heq => by omega
  have hcounts : ∀ s, (m.writes.map Patch.start).count s = (m.slots.map Prod.fst).count s := by
    intro s
    have hs := h.counts s
    rwa [pending_validated hvalid, count_nil, Nat.add_zero] at hs
  have honce : ∀ slot ∈ m.slots, (m.writes.map Patch.start).count slot.1 = 1 := by
    intro slot hslot
    rw [hcounts]
    exact count_eq_one_of_mem hnodup (mem_map_of_mem hslot)
  have hapart : m.writes.Pairwise Patch.Apart := by
    have hstarts : (m.writes.map Patch.start).Nodup :=
      (perm_iff_count.mpr hcounts).nodup_iff.mpr hnodup
    rw [List.Nodup, pairwise_map] at hstarts
    refine hstarts.imp_of_mem fun {p q} hp hq hne => ?_
    obtain ⟨hsize, k, _, hk, _⟩ := h.written p hp
    obtain ⟨hsize', k', _, hk', _⟩ := h.written q hq
    rw [Patch.Apart, Patch.stop, Patch.stop, hsize, hsize']
    rcases slots_apart h.apart hk hk' with heq | hapart
    · exact absurd (congrArg Prod.fst heq) hne
    · exact hapart
  refine ⟨?_, honce, ?_, h.length, ?_⟩
  · intro slot hslot
    have hmem : slot.1 ∈ m.writes.map Patch.start := by
      rw [← count_pos_iff, honce slot hslot]
      exact Nat.one_pos
    obtain ⟨p, hp, hstart⟩ := mem_map.mp hmem
    obtain ⟨hsize, k, position, hk, ⟨l, hl, rfl, hpos⟩, hdecodes⟩ := h.written p hp
    rw [hstart] at hk hdecodes
    obtain rfl : k = slot.2 := by
      rcases slots_apart h.apart hk hslot with heq | hapart
      · exact congrArg Prod.snd heq
      · omega
    have hinside := h.inside slot hslot
    rw [← h.length] at hinside
    refine ⟨l, hl, hpos, hinside, ?_⟩
    have hslice := slice_puts_mem h.stops hapart hp
    rw [hstart, hsize, ← h.code] at hslice
    unfold i32At u32At
    rw [hslice]
    exact hdecodes
  · intro p hp
    obtain ⟨hsize, k, _, hslot, _⟩ := h.written p hp
    exact ⟨hsize, _, hslot, rfl⟩
  · intro i hi
    have happart : ∀ p ∈ m.writes, i + 1 ≤ p.start ∨ p.stop ≤ i := by
      intro p hp
      obtain ⟨hsize, k, _, hslot, _⟩ := h.written p hp
      rw [Patch.stop, hsize]
      exact hi _ hslot
    have hslice := slice_puts_of_apart h.stops happart
    rw [← h.code] at hslice
    have hget := congrArg (fun l : List UInt8 => l[0]?) hslice
    simp only [getElem?_slice] at hget
    exact hget

theorem tracks_new : Tracks {} :=
  ⟨rfl, .nil, by simp, fun _ => rfl, by simp, by simp [Bound], by simp⟩

/-- Whatever is emitted, if no reference goes back too far and the labels are valid in the end,
    every reference leads to its label. -/
theorem labelReferences_exact (ops : List Operation) (m : DirectMachine)
    (hrun : run step {} ops = some m) (hnear : Meets step Near {} ops)
    (hvalid : m.validateLabelReferences = .ok ()) : Exact m := by
  have hstep : ∀ m op m', Tracks m → Near m op → step m op = some m' → Tracks m' := by
    intro m op m' hm hop hs
    rw [step] at hs
    cases happly : op.apply m with
    | error _ => simp [happly, Except.toOption] at hs
    | ok m₁ =>
      rw [happly] at hs
      cases hs
      exact hm.apply hop happly
  exact (run_preserves hstep tracks_new hnear hrun).exact hvalid

theorem labelReferences_exact_forward : Exact
    { code := [0xe9, 1, 0, 0, 0, 0x90], emitted := [0xe9, 0, 0, 0, 0, 0x90],
      labels := [⟨6, [1]⟩], slots := [(1, 0)], writes := [⟨1, [1, 0, 0, 0]⟩] } := by
  refine labelReferences_exact [.newLabel, .jump 0, .emit [0x90], .bind 0] _ rfl ?_ rfl
  refine ⟨trivial, fun _ hs => ⟨?_, fun _ _ => ⟨trivial, fun _ _ => ⟨trivial, fun _ _ => trivial⟩⟩⟩⟩
  cases hs
  intro l hl hpos
  cases hl
  exact absurd hpos (by decide)

/-! ## A loop that is too long -/

/-- The code of a loop with so many bytes in its body. -/
def loop (n : Nat) : List Operation :=
  [.newLabel, .bind 0, .emit (List.replicate n 0x90), .jump 0]

theorem loop_runs (n : Nat) : ∃ m, run step {} (loop n) = some m ∧
    m.validateLabelReferences = .ok () ∧ (Exact m → n < 2 ^ 31) := by
  have hlength : (List.replicate n (0x90 : UInt8) ++ [0xe9]).length = n + 1 := by simp
  refine ⟨_, rfl, rfl, fun hexact => ?_⟩
  obtain ⟨l, hl, -, -, hleads⟩ := hexact.leads
    ((List.replicate n (0x90 : UInt8) ++ [0xe9]).length, 0) (mem_singleton.mpr rfl)
  cases hl
  change _ = (0 : Int) - ((List.replicate n (0x90 : UInt8) ++ [0xe9]).length + 4) at hleads
  have hslice := slice_put_self (p := displacement 0 (List.replicate n (0x90 : UInt8) ++
    [0xe9]).length) (l := List.replicate n 0x90 ++ [0xe9] ++ [0, 0, 0, 0])
    (by simp [Patch.stop, displacement])
  have hdecodes := (congrArg (fun b => Int.bmod (Wire.ofLittleEndian b) (2 ^ 32)) hslice).symm.trans
    hleads
  rw [displacement, Wire.ofLittleEndian_littleEndian, Int.bmod_def] at hdecodes
  omega

/-- A jump back by 2 GiB leads somewhere else. -/
theorem labelReferences_far : ∃ ops m, run step {} ops = some m ∧
    m.validateLabelReferences = .ok () ∧ ¬ Exact m := by
  obtain ⟨m, hrun, hvalid, hnear⟩ := loop_runs (2 ^ 31)
  exact ⟨_, m, hrun, hvalid, fun hexact => Nat.lt_irrefl _ (hnear hexact)⟩

end Kryndel.PE.Labels
