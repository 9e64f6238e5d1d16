import Kryndel.PE.PortableExecutable

/-!
# The table of imports

Each imported function has a slot in the table that the loader fills in. Before it does, a slot
has the address of the name of its function. The code calls through the slots.
-/

namespace Kryndel.PE

open Patches List

theorem pad_eq (alignment : Nat) (data : List UInt8) :
    ∃ zeros, pad alignment data = data ++ zeros := ⟨_, rfl⟩

/-- How long the section is after the name of a function. -/
def lengthWith (n : Nat) (name : String) : Nat :=
  n + (2 + (text name).length + 1) +
    (2 - (n + (2 + (text name).length + 1)) % 2) % 2

theorem length_named (data : List UInt8) (name : String) :
    (pad 2 (data ++ [0, 0] ++ text name ++ [0])).length = lengthWith data.length name := by
  simp only [pad, lengthWith, length_append, length_replicate, length_cons,
    length_nil]
  omega

@[simp] theorem start_pePut64 (start : Nat) (value : UInt64) :
    (pePut64 start value).start = start := rfl

@[simp] theorem stop_pePut64 (start : Nat) (value : UInt64) :
    (pePut64 start value).stop = start + 8 := rfl

/-- A slot that points to the name of its function. -/
structure Slot (rva : UInt32) (iatStart : Nat) (data : List UInt8) (i : Nat) (name : String)
    (start : Nat) : Prop where
  address : slice data (iatStart + 8 * i) 8 =
    Wire.littleEndian 8 (rva + UInt32.ofNat start).toUInt64.toNat
  hint : slice data start (2 + (text name).length + 1) = [0, 0] ++ text name ++ [0]
  behind : iatStart ≤ start
  inside : start + (2 + (text name).length + 1) ≤ data.length

/-- What the loop does: it fills the slots that are missing, and adds the names. -/
structure Imported (rva : UInt32) (iatStart : Nat) (i : Nat) (names : List String)
    (data out : List UInt8) : Prop where
  length : out.length = names.foldl lengthWith data.length
  longer : data.length ≤ out.length
  kept : ∀ start n, iatStart ≤ start → start + n ≤ iatStart + 8 * i ∨
      iatStart + 8 * (i + names.length) ≤ start → start + n ≤ data.length →
    slice out start n = slice data start n
  slots : ∀ k name, names[k]? = some name → ∃ start, Slot rva iatStart out (i + k) name start

theorem importRows_spec {rva : UInt32} {ilt iatStart i : Nat} {names : List String}
    {data : List UInt8} {iat : List UInt32} (hilt : ilt + 8 * (i + names.length) ≤ iatStart)
    (hdata : iatStart + 8 * (i + names.length) ≤ data.length) :
    Imported rva iatStart i names data
      (importRows rva ilt iatStart i names (data, iat)).1 := by
  induction names generalizing i data iat with
  | nil =>
    refine ⟨rfl, Nat.le_refl _, fun _ _ _ _ _ => rfl, ?_⟩
    intro k name hk
    cases hk
  | cons name names ih =>
    rw [length_cons] at hilt hdata
    obtain ⟨ps, hps⟩ : ∃ ps, ps = [
        pePut64 (ilt + 8 * i) (rva + UInt32.ofNat data.length).toUInt64,
        pePut64 (iatStart + 8 * i) (rva + UInt32.ofNat data.length).toUInt64] := ⟨_, rfl⟩
    have hinside : ∀ p ∈ ps, p.stop ≤ iatStart ∨
        iatStart + 8 * i ≤ p.start ∧ p.stop ≤ iatStart + 8 * (i + 1) := by
      rw [hps]
      simp only [forall_mem_cons, start_pePut64, stop_pePut64]
      exact ⟨Or.inl (by omega), Or.inr ⟨by omega, by omega⟩, forall_mem_nil _⟩
    have hfit : ∀ p ∈ ps, p.stop ≤ data.length := by
      intro p hp
      have hp := hinside p hp
      omega
    have hputs := length_puts hfit
    obtain ⟨data', hdata'⟩ : ∃ data', data' =
      pad 2 (puts data ps ++ [0, 0] ++ text name ++ [0]) := ⟨_, rfl⟩
    have hlength : data'.length = lengthWith data.length name := by
      rw [hdata', length_named, hputs]
    have hgrow : data.length + (2 + (text name).length + 1) ≤ data'.length := by
      rw [hlength, lengthWith]
      omega
    obtain ⟨iat', hiat'⟩ : ∃ iat', iat' =
      iat ++ [rva + UInt32.ofNat iatStart + UInt32.ofNat (8 * i)] := ⟨_, rfl⟩
    obtain ⟨hout, hlonger, hkept, hslots⟩ := @ih (i + 1) data' iat' (by omega) (by omega)
    have hround : importRows rva ilt iatStart i (name :: names) (data, iat) =
        importRows rva ilt iatStart (i + 1) names (data', iat') := by
      rw [hdata', hps, hiat']
      rfl
    rw [hround]
    -- what the patches leave alone is left alone, and the name is added behind it
    let hint := [0, 0] ++ text name ++ [0]
    obtain ⟨zeros, hpad⟩ := pad_eq 2 (puts data ps ++ [0, 0] ++ text name ++ [0])
    have hzeros : data' = puts data ps ++ hint ++ zeros := by
      rw [hdata', hpad]
      simp only [hint, append_assoc]
    refine ⟨by rw [hout, hlength]; rfl, by omega, ?_, ?_⟩
    · intro start n hstart hrange hend
      rw [length_cons] at hrange
      rw [hkept start n hstart (by omega) (by omega), hzeros, append_assoc,
        slice_append_left (by rw [hputs]; exact hend)]
      apply slice_puts_of_apart hfit
      intro p hp
      have hp := hinside p hp
      omega
    · intro k name' hk
      cases k with
      | succ k =>
        rw [show i + (k + 1) = i + 1 + k by omega]
        exact hslots k name' hk
      | zero =>
        cases hk
        have hhint : hint.length = 2 + (text name).length + 1 := by
          simp only [hint, length_append, length_cons, length_nil]
        refine ⟨data.length, ?_, ?_, by omega, by omega⟩
        · have hpatch : pePut64 (iatStart + 8 * i) (rva + UInt32.ofNat data.length).toUInt64 ∈
              ps := by
            rw [hps]
            exact mem_cons_of_mem _ mem_cons_self
          have hapart : ps.Pairwise Patch.Apart := by
            rw [hps]
            simp only [pairwise_cons, mem_singleton, forall_eq, Patch.Apart,
              stop_pePut64, start_pePut64]
            exact ⟨Or.inl (by omega), forall_mem_nil _, List.Pairwise.nil⟩
          rw [Nat.add_zero, hkept _ _ (by omega) (by omega) (by omega), hzeros, append_assoc,
            slice_append_left (by omega)]
          exact slice_puts_mem hfit hapart hpatch
        · rw [hkept _ _ (by omega) (by omega) (by omega), hzeros,
            slice_append_left (by rw [length_append]; omega), ← hputs, ← hhint,
            slice_append_right]

/-! ## The section -/

/-- The descriptor, and the name of the library. -/
def importDescriptor : List UInt8 :=
  pad 8 (List.replicate 40 0 ++ text "KERNEL32.dll" ++ [0])

theorem length_importDescriptor : importDescriptor.length = 56 := by decide

/-- The first part of the section, with the two tables. -/
def importStart : List UInt8 :=
  importDescriptor ++ List.replicate 56 0 ++ List.replicate 56 0

theorem length_importTables : (importDescriptor ++ List.replicate 56 0).length = 112 := by
  rw [length_append, length_importDescriptor, length_replicate]

theorem length_importStart : importStart.length = 168 := by
  rw [importStart, length_append, length_importTables, length_replicate]

variable (rva : UInt32)

theorem peImportData_eq : peImportData rva =
    (puts (pad 8 (importRows rva 56 112 0 importNames (importStart, [])).1)
      [pePut32 0 (rva + 56), pePut32 12 (rva + 40), pePut32 16 (rva + 112)],
      (importRows rva 56 112 0 importNames (importStart, [])).2) := by
  have hnames : (importNames.length + 1) * 8 = 56 := by decide
  simp only [peImportData, hnames, length_replicate]
  rw [← importDescriptor, length_importDescriptor, length_importTables]
  rfl

theorem importRows_start : Imported rva 112 0 importNames importStart
    (importRows rva 56 112 0 importNames (importStart, [])).1 := by
  apply importRows_spec
  · decide
  · rw [length_importStart]
    decide

theorem length_importRows :
    (importRows rva 56 112 0 importNames (importStart, [])).1.length = 258 := by
  rw [(importRows_start rva).length, length_importStart]
  decide

theorem length_padded :
    (pad 8 (importRows rva 56 112 0 importNames (importStart, [])).1).length = 264 := by
  rw [pad, length_append, length_replicate, length_importRows]

theorem descriptor_inside : ∀ p ∈ [pePut32 0 (rva + 56), pePut32 12 (rva + 40),
    pePut32 16 (rva + 112)], p.stop ≤ 20 := by
  simp [pePut32, Patch.stop]

theorem length_peImportData : (peImportData rva).1.length = 264 := by
  rw [peImportData_eq, length_puts, length_padded]
  intro p hp
  have hstop := descriptor_inside rva p hp
  rw [length_padded]
  omega

theorem slice_peImportData {start n : Nat} (hstart : 20 ≤ start) (hend : start + n ≤ 258) :
    slice (peImportData rva).1 start n =
      slice (importRows rva 56 112 0 importNames (importStart, [])).1 start n := by
  rw [peImportData_eq, slice_puts_of_apart, pad, slice_append_left]
  · rw [length_importRows]
    exact hend
  · intro p hp
    have hstop := descriptor_inside rva p hp
    rw [length_padded]
    omega
  · intro p hp
    have hstop := descriptor_inside rva p hp
    omega

theorem iat_eq : (peImportData rva).2 =
    (List.range 6).map fun i => rva + 112 + UInt32.ofNat (8 * i) := by
  rfl

theorem slots {i : Nat} {name : String} (h : importNames[i]? = some name) :
    ∃ start, Slot rva 112 (peImportData rva).1 i name start := by
  obtain ⟨start, hslot⟩ := (importRows_start rva).slots i name h
  have hlength := length_importRows rva
  have hi : i < 6 := (List.getElem?_eq_some_iff.mp h).1
  have hinside := hslot.inside
  have hbehind := hslot.behind
  rw [Nat.zero_add] at hslot
  refine ⟨start, ?_, ?_, hbehind, ?_⟩
  · rw [slice_peImportData rva (by omega) (by omega)]
    exact hslot.address
  · rw [slice_peImportData rva (by omega) (by omega)]
    exact hslot.hint
  · rw [length_peImportData]
    omega

end Kryndel.PE
