import Kryndel.Syntax.Source
import Kryndel.PE.PortableExecutable
import Mathlib.Data.List.Chain

/-!
# The table for unwinding

Each function has a row in the table: its first and last address and the address of what says how
to unwind its frame, which stands behind the table. The rows are in the order of the code.
-/

namespace Kryndel.PE

open Patches List

/-! ## How to unwind a frame -/

theorem length_pad_of_dvd {alignment : Nat} {data : List UInt8} (h : alignment ∣ data.length) :
    pad alignment data = data := by
  rw [pad, Nat.mod_eq_zero_of_dvd h, Nat.sub_zero, Nat.mod_self, replicate_zero,
    append_nil]

theorem length_unwindInfo {frame : UInt32} {info : List UInt8}
    (h : peFrameUnwindInfo frame = .ok info) : info.length = 12 := by
  obtain ⟨-, h⟩ := ite_throw_eq_ok.mp h
  obtain ⟨-, h⟩ := ite_throw_eq_ok.mp h
  cases h
  split <;> simp [pad]

/-! ## Rows -/

/-- The row of a function. -/
structure Row (rva : UInt32) (count : Nat) (data : List UInt8) (index : Nat)
    (function : PeFunctionRange) (info : List UInt8) : Prop where
  known : peFrameUnwindInfo function.frame = .ok info
  begin : slice data (12 * index) 4 =
    Wire.littleEndian 4 (peTextRVA + function.begin.toUInt64.toUInt32).toNat
  finish : slice data (12 * index + 4) 4 =
    Wire.littleEndian 4 (peTextRVA + function.finish.toUInt64.toUInt32).toNat
  address : slice data (12 * index + 8) 4 =
    Wire.littleEndian 4 (rva.toNat + 12 * count + 12 * index)
  unwind : slice data (12 * count + 12 * index) 12 = info
  inside : rva.toNat + 12 * count + 12 * index ≤ maxUint32.toNat

/-- The patches for the row of a function. -/
def rowPatches (index : Nat) (address : UInt64) (function : PeFunctionRange) :
    List (Patch UInt8) :=
  [pePut32 (index * 12) (peTextRVA + function.begin.toUInt64.toUInt32),
    pePut32 (index * 12 + 4) (peTextRVA + function.finish.toUInt64.toUInt32),
    pePut32 (index * 12 + 8) address.toUInt32]

theorem unwindRows_cons {rva codeSize : UInt32} {index : Nat} {previousEnd : UInt32}
    {data out : List UInt8} {function : PeFunctionRange} {rest : List PeFunctionRange}
    (hdata : 4 ∣ data.length)
    (h : unwindRows rva codeSize index previousEnd data (function :: rest) = .ok out) :
    ∃ info, peFrameUnwindInfo function.frame = .ok info ∧
      (function.begin < function.finish ∧ function.finish ≤ codeSize.toUInt64.toInt64 ∧
        (0 < index → previousEnd.toUInt64.toInt64 ≤ function.begin)) ∧
      peTextRVA.toUInt64 + function.finish.toUInt64 ≤ maxUint32 ∧
      rva.toUInt64 + UInt64.ofNat data.length ≤ maxUint32 ∧
      unwindRows rva codeSize (index + 1) function.finish.toUInt64.toUInt32
        (puts (data ++ info)
          (rowPatches index (rva.toUInt64 + UInt64.ofNat data.length) function)) rest =
            .ok out := by
  obtain ⟨hrange, h⟩ := ite_throw_eq_ok.mp h
  obtain ⟨hend, h⟩ := ite_throw_eq_ok.mp h
  obtain ⟨info, hinfo, h⟩ := bind_eq_ok h
  obtain ⟨haddress, h⟩ := ite_throw_eq_ok.mp h
  rw [length_pad_of_dvd hdata] at h haddress
  simp only [ge_iff_le, gt_iff_lt, not_or, not_and, Int64.not_le, Int64.not_lt,
    UInt64.not_lt] at hrange hend haddress
  exact ⟨info, hinfo, hrange, hend, haddress, h⟩

@[simp] theorem start_pePut32 (start : Nat) (value : UInt32) :
    (pePut32 start value).start = start := rfl

@[simp] theorem stop_pePut32 (start : Nat) (value : UInt32) :
    (pePut32 start value).stop = start + 4 := rfl

theorem address_toNat (rva : UInt32) {n : Nat} (hn : n ≤ 2 ^ 34)
    (h : rva.toUInt64 + UInt64.ofNat n ≤ maxUint32) :
    (rva.toUInt64 + UInt64.ofNat n).toUInt32.toNat = rva.toNat + n ∧
      rva.toNat + n ≤ maxUint32.toNat := by
  have hrva := rva.toNat_lt
  have hsum : (rva.toUInt64 + UInt64.ofNat n).toNat = rva.toNat + n := by
    rw [UInt64.toNat_add, UInt32.toNat_toUInt64, UInt64.toNat_ofNat']
    omega
  rw [UInt64.le_iff_toNat_le, hsum] at h
  refine ⟨?_, h⟩
  have hmax : maxUint32.toNat = 2 ^ 32 - 1 := rfl
  rw [UInt64.toNat_toUInt32, hsum]
  omega

/-- What a function of the table is allowed to be. -/
def PeFunctionRange.Lies (codeSize : UInt32) (f : PeFunctionRange) : Prop :=
  f.begin < f.finish ∧ f.finish ≤ codeSize.toUInt64.toInt64

/-- The end of a function, as the loop remembers it. -/
def PeFunctionRange.remembered (f : PeFunctionRange) : Int64 :=
  f.finish.toUInt64.toUInt32.toUInt64.toInt64

/-- What the loop does: it writes the rows that are missing. -/
structure Unwound (rva codeSize : UInt32) (index count : Nat) (previousEnd : UInt32)
    (data out : List UInt8) (functions : List PeFunctionRange) : Prop where
  length : out.length = 24 * count
  kept : ∀ start n, start + n ≤ 12 * index ∨ 12 * count ≤ start ∧ start + n ≤ data.length →
    slice out start n = slice data start n
  rows : ∀ k function, functions[k]? = some function →
    ∃ info, Row rva count out (index + k) function info
  lies : ∀ f ∈ functions, f.Lies codeSize
  first : 0 < index → ∀ f ∈ functions.head?, previousEnd.toUInt64.toInt64 ≤ f.begin
  chain : functions.IsChain fun f g => f.remembered ≤ g.begin

variable {functions : List PeFunctionRange}

theorem unwindRows_spec {rva codeSize : UInt32} {index count : Nat} {previousEnd : UInt32}
    {data out : List UInt8} (h : unwindRows rva codeSize index previousEnd data functions = .ok out)
    (hcount : index + functions.length = count) (hfew : 12 * count < 2 ^ 32)
    (hdata : data.length = 12 * count + 12 * index) :
    Unwound rva codeSize index count previousEnd data out functions := by
  induction functions generalizing index previousEnd data with
  | nil =>
    cases h
    rw [length_nil, Nat.add_zero] at hcount
    refine ⟨by omega, fun _ _ _ => rfl, ?_, forall_mem_nil _, ?_, List.IsChain.nil⟩
    · intro k function hk
      cases hk
    · intro _ f hf
      cases hf
  | cons function rest ih =>
    obtain ⟨info, hinfo, ⟨hbegin, hend, hprevious⟩, -, haddress, h⟩ :=
      unwindRows_cons ⟨3 * count + 3 * index, by omega⟩ h
    have hlength := length_unwindInfo hinfo
    rw [length_cons] at hcount
    obtain ⟨haddress, hlow⟩ := address_toNat rva (n := data.length) (by omega) haddress
    obtain ⟨ps, hps⟩ : ∃ ps, ps = rowPatches index (rva.toUInt64 + UInt64.ofNat data.length)
      function := ⟨_, rfl⟩
    have hinside : ∀ p ∈ ps, 12 * index ≤ p.start ∧ p.stop ≤ 12 * (index + 1) := by
      rw [hps, rowPatches]
      simp only [forall_mem_cons, start_pePut32, stop_pePut32]
      exact ⟨by omega, by omega, by omega, forall_mem_nil _⟩
    have hapart : ps.Pairwise Patch.Apart := by
      rw [hps, rowPatches]
      simp [Patch.Apart]
    have hfit : ∀ p ∈ ps, p.stop ≤ (data ++ info).length := by
      intro p hp
      have hstop := (hinside p hp).2
      rw [length_append]
      omega
    have hdata' : (puts (data ++ info) ps).length = 12 * count + 12 * (index + 1) := by
      rw [length_puts hfit, length_append]
      omega
    obtain ⟨hout, hkept, hrows, hlies, hfirst, hchain⟩ := ih (hps.symm ▸ h) (by omega) hdata'
    refine ⟨hout, ?_, ?_, forall_mem_cons.mpr ⟨⟨hbegin, hend⟩, hlies⟩, ?_,
      isChain_cons.mpr ⟨hfirst (Nat.succ_pos index), hchain⟩⟩
    · intro start n hrange
      rw [hkept start n (by omega), slice_puts_of_apart hfit, slice_append_left (by omega)]
      intro p hp
      have hp := hinside p hp
      omega
    · intro k f hk
      cases k with
      | succ k =>
        rw [show index + (k + 1) = index + 1 + k by omega]
        exact hrows k f hk
      | zero =>
        cases hk
        have hrow : ∀ p ∈ ps, slice out p.start p.content.length = p.content := by
          intro p hp
          have hp' := hinside p hp
          have hstop : p.stop = p.start + p.content.length := rfl
          rw [hkept _ _ (by omega)]
          exact slice_puts_mem hfit hapart hp
        rw [hps, rowPatches] at hrow
        simp only [forall_mem_cons, pePut32, Wire.length_littleEndian, Nat.mul_comm index]
          at hrow
        obtain ⟨hfrom, hto, hunwind, -⟩ := hrow
        rw [haddress, hdata, ← Nat.add_assoc] at hunwind
        refine ⟨info, hinfo, hfrom, hto, hunwind, ?_, by omega⟩
        have hlong : (puts (data ++ info) ps).length = data.length + info.length := by
          rw [length_puts hfit, length_append]
        rw [Nat.add_zero, ← hdata, ← hlength, hkept _ _ (by omega), slice_puts_of_apart hfit,
          slice_append_right]
        intro p hp
        have hp := hinside p hp
        omega
    · intro hpos f hf
      cases hf
      exact hprevious hpos

/-! ## The table -/

theorem toInt_word (x : UInt32) : x.toUInt64.toInt64.toInt = x.toNat := by
  have hlt := x.toNat_lt
  have h : x.toUInt64.toInt64.toBitVec.toNat = x.toNat := by
    rw [UInt64.toBitVec_toInt64, UInt64.toNat_toBitVec, UInt32.toNat_toUInt64]
  rw [← Int64.toInt_toBitVec, BitVec.toInt_eq_toNat_of_lt (by omega), h]

theorem toNat_cut {x : Int64} (h : 0 ≤ x.toInt) (hlt : x.toInt < 2 ^ 32) :
    (x.toUInt64.toUInt32.toNat : Int) = x.toInt := by
  have hx : 0 ≤ x := Int64.le_iff_toInt_le.mpr h
  have hcast := Int64.cast_toNatClampNeg x hx
  rw [UInt64.toNat_toUInt32, Int64.toNat_toUInt64_of_le hx]
  omega

variable {codeSize : UInt32}

variable {f : PeFunctionRange}

theorem lies_toInt (h : f.Lies codeSize) (hbegin : 0 ≤ f.begin) :
    0 ≤ f.begin.toInt ∧ f.begin.toInt < f.finish.toInt ∧ f.finish.toInt ≤ codeSize.toNat := by
  obtain ⟨hlt, hle⟩ := h
  rw [Int64.lt_iff_toInt_lt] at hlt
  rw [Int64.le_iff_toInt_le, toInt_word] at hle
  exact ⟨Int64.le_iff_toInt_le.mp hbegin, hlt, hle⟩

theorem remembered_eq (h : f.Lies codeSize) (hbegin : 0 ≤ f.begin) :
    f.remembered = f.finish := by
  obtain ⟨hle, hlt, hend⟩ := lies_toInt h hbegin
  have hsize := codeSize.toNat_lt
  apply Int64.toInt_inj.mp
  rw [PeFunctionRange.remembered, toInt_word, toNat_cut (by omega) (by omega)]

theorem pairwise_of_chain (hlies : ∀ f ∈ functions, f.Lies codeSize)
    (hchain : functions.IsChain fun f g => f.remembered ≤ g.begin)
    (hbegin : ∀ f ∈ functions, 0 ≤ f.begin) :
    functions.Pairwise fun f g => f.finish ≤ g.begin := by
  induction functions with
  | nil => exact List.Pairwise.nil
  | cons f rest ih =>
    obtain ⟨hf, hrest⟩ := forall_mem_cons.mp hlies
    obtain ⟨hfbegin, hrestbegin⟩ := forall_mem_cons.mp hbegin
    obtain ⟨hfirst, hchain⟩ := isChain_cons.mp hchain
    have hpairs := ih hrest hchain hrestbegin
    refine List.Pairwise.cons ?_ hpairs
    cases rest with
    | nil => exact forall_mem_nil _
    | cons g rest =>
      have hnext := hfirst g rfl
      rw [remembered_eq hf hfbegin] at hnext
      refine forall_mem_cons.mpr ⟨hnext, fun f' hf' => ?_⟩
      -- what is behind the next function is behind this one
      exact Int64.le_trans hnext (Int64.le_trans (Int64.le_of_lt (hrest g mem_cons_self).1)
        ((pairwise_cons.mp hpairs).1 f' hf'))

theorem peRuntimeFunctionData_spec {rva codeSize size : UInt32} {data : List UInt8}
    (h : peRuntimeFunctionData functions rva codeSize = .ok (data, size)) :
    ∃ ordered : List PeFunctionRange, ordered.Perm functions ∧ size.toNat = 12 * ordered.length ∧
      Unwound rva codeSize 0 ordered.length 0 (List.replicate (ordered.length * 12) 0) data
        ordered := by
  obtain ⟨hfew, h⟩ := ite_throw_eq_ok.mp h
  obtain ⟨data', hrows, h⟩ := bind_eq_ok h
  cases h
  have hmax : maxUint32.toNat = 2 ^ 32 - 1 := rfl
  refine ⟨_, perm_insertionSort _ _, ?_, unwindRows_spec hrows (Nat.zero_add _) (by omega) ?_⟩
  · rw [UInt32.toNat_ofNat']
    omega
  · rw [length_replicate]
    omega

end Kryndel.PE
