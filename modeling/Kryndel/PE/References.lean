import Kryndel.PE.ImportTable
import Kryndel.PE.UnwindTable

/-!
# References of the code

Where the code refers to data or to an import, the distance from the end of an instruction to its
target is written into the code. The target is found again from what is written, unless another
reference is written over it.
-/

namespace Kryndel.PE

open Patches List

/-- A number of 32 bits in a file. -/
def u32At (image : List UInt8) (start : Nat) : Nat := Wire.ofLittleEndian (slice image start 4)

/-- The same with a sign. -/
def i32At (image : List UInt8) (start : Nat) : Int := Int.bmod (u32At image start) (2 ^ 32)

theorem ofLittleEndian_word (v : UInt32) :
    Wire.ofLittleEndian (Wire.littleEndian 4 v.toNat) = v.toNat := by
  rw [Wire.ofLittleEndian_littleEndian]
  exact Nat.mod_eq_of_lt v.toNat_lt

theorem u32At_of_slice {image : List UInt8} {start n : Nat}
    (h : slice image start 4 = Wire.littleEndian 4 n) (hn : n < 2 ^ 32) :
    u32At image start = n := by
  rw [u32At, h, Wire.ofLittleEndian_littleEndian]
  exact Nat.mod_eq_of_lt hn

theorem bmod_cut {x : Int64} (hlow : -2 ^ 31 ≤ x.toInt) (hhigh : x.toInt < 2 ^ 31) :
    Int.bmod (x.toUInt64.toUInt32.toNat : Int) (2 ^ 32) = x.toInt := by
  have hbits : x.toInt = Int.bmod (x.toUInt64.toNat : Int) (2 ^ 64) := by
    rw [← Int64.toInt_toBitVec, BitVec.toInt_eq_toNat_bmod]
    rfl
  rw [UInt64.toNat_toUInt32]
  rw [Int.bmod_def] at hbits ⊢
  omega

theorem toInt_add_four {x : Int64} (hpos : 0 ≤ x.toInt) (h : x ≤ x + 4) :
    (x + 4).toInt = x.toInt + 4 := by
  rw [Int64.le_iff_toInt_le, Int64.toInt_add, show (4 : Int64).toInt = 4 from rfl,
    Int.bmod_def] at h
  rw [Int64.toInt_add, show (4 : Int64).toInt = 4 from rfl, Int.bmod_def]
  omega

/-- What a distance is, and where it is written. -/
structure Written (codeLength displacement : Int64) (distance : Int) (p : Patch UInt8) :
    Prop where
  start : (p.start : Int) = displacement.toInt
  stop : (p.stop : Int) ≤ codeLength.toInt
  size : p.content.length = 4
  content : Int.bmod (Wire.ofLittleEndian p.content) (2 ^ 32) = distance

variable {p : Patch UInt8}

theorem displacementPatch_spec {codeLength displacement delta : Int64} {tooFar : String}
    (hpos : ¬displacement < 0)
    (h : displacementPatch codeLength displacement delta tooFar = .ok p) :
    -2 ^ 31 ≤ delta.toInt ∧ delta.toInt < 2 ^ 31 ∧
      Written codeLength displacement delta.toInt p := by
  obtain ⟨hfar, h⟩ := ite_throw_eq_ok.mp h
  obtain ⟨hslice, h⟩ := ite_throw_eq_ok.mp h
  cases h
  rw [Int64.not_lt, Int64.le_iff_toInt_le] at hpos
  obtain ⟨hwrap, hend⟩ := not_or.mp hslice
  rw [Int64.not_lt] at hwrap hend
  have hsum := toInt_add_four hpos hwrap
  rw [Int64.le_iff_toInt_le, hsum] at hend
  obtain ⟨hlow, hhigh⟩ := not_or.mp hfar
  rw [Int64.not_lt, Int64.le_iff_toInt_le] at hlow hhigh
  have hhigh : delta.toInt ≤ 2 ^ 31 - 1 := hhigh
  have hstart := Int64.cast_toNatClampNeg displacement (Int64.le_iff_toInt_le.mpr hpos)
  refine ⟨hlow, by omega, hstart, ?_, Wire.length_littleEndian _ _, ?_⟩
  · rw [stop_pePut32]
    omega
  · rw [pePut32, ofLittleEndian_word]
    exact bmod_cut hlow (by omega)

theorem toInt_distance {target base finish : Int64} (htarget : 0 ≤ target.toInt)
    (htarget' : target.toInt < 2 ^ 40) (hbase : 0 ≤ base.toInt) (hbase' : base.toInt < 2 ^ 40)
    (hlow : -2 ^ 31 ≤ (target - base - finish).toInt)
    (hhigh : (target - base - finish).toInt < 2 ^ 31) :
    (target - base - finish).toInt = target.toInt - base.toInt - finish.toInt := by
  have hmin := finish.le_toInt
  have hmax := finish.toInt_lt
  rw [Int64.toInt_sub, Int64.toInt_sub, Int.bmod_def, Int.bmod_def] at hlow hhigh ⊢
  omega

theorem displacementPatch_distance {codeLength displacement target finish : Int64}
    {tooFar : String} (hpos : ¬displacement < 0) (htarget : 0 ≤ target.toInt)
    (htarget' : target.toInt < 2 ^ 40)
    (h : displacementPatch codeLength displacement
      (target - peTextRVA.toUInt64.toInt64 - finish) tooFar = .ok p) :
    Written codeLength displacement (target.toInt - peTextRVA.toNat - finish.toInt) p := by
  obtain ⟨hlow, hhigh, hwritten⟩ := displacementPatch_spec hpos h
  have hbase := toInt_word peTextRVA
  have hbase' : peTextRVA.toNat = 4096 := rfl
  have hdistance := toInt_distance htarget htarget' (by omega) (by omega) hlow hhigh
  rwa [hdistance, hbase] at hwritten

theorem dataPatch_spec {codeLength rdataLength : Int64} {rdataRVA : UInt32} {ref : MachineDataRef}
    (hlength : rdataLength.toInt < 2 ^ 32)
    (h : dataPatch codeLength rdataLength rdataRVA ref = .ok p) :
    0 ≤ ref.dataOffset.toInt ∧ ref.dataOffset.toInt ≤ rdataLength.toInt ∧
      Written codeLength ref.displacement
        (rdataRVA.toNat + ref.dataOffset.toInt - peTextRVA.toNat - ref.instructionEnd.toInt) p := by
  obtain ⟨hvalid, h⟩ := ite_throw_eq_ok.mp h
  obtain ⟨hpos, hrest⟩ := not_or.mp hvalid
  obtain ⟨-, hrest⟩ := not_or.mp hrest
  obtain ⟨hoffset, hoffset'⟩ := not_or.mp hrest
  rw [Int64.not_lt, Int64.le_iff_toInt_le] at hoffset hoffset'
  have hoffset : 0 ≤ ref.dataOffset.toInt := hoffset
  have hrva := rdataRVA.toNat_lt
  have htarget : (rdataRVA.toUInt64.toInt64 + ref.dataOffset).toInt =
      rdataRVA.toNat + ref.dataOffset.toInt := by
    rw [Int64.toInt_add, toInt_word, Int.bmod_def]
    omega
  have hwritten := displacementPatch_distance hpos (by omega) (by omega) h
  rw [htarget] at hwritten
  exact ⟨hoffset, hoffset', hwritten⟩

variable {iat : List UInt32}

theorem importPatch_spec {codeLength : Int64} {ref : PeImportRef} (hlength : iat.length < 2 ^ 32)
    (h : importPatch codeLength iat ref = .ok p) :
    ∃ slot, iat[ref.importIndex.toNatClampNeg]? = some slot ∧
      Written codeLength ref.displacement
        (slot.toNat - peTextRVA.toNat - ref.instructionEnd.toInt) p := by
  unfold importPatch at h
  obtain ⟨hvalid, h⟩ := ite_throw_eq_ok.mp h
  obtain ⟨hpos, hrest⟩ := not_or.mp hvalid
  obtain ⟨-, hrest⟩ := not_or.mp hrest
  obtain ⟨hindex, hindex'⟩ := not_or.mp hrest
  rw [Int64.not_lt] at hindex
  rw [ge_iff_le, Int64.not_le, Int64.lt_iff_toInt_lt, Int64.toInt_ofNat_of_lt (by omega)] at hindex'
  have hcast := Int64.cast_toNatClampNeg _ hindex
  have hin : ref.importIndex.toNatClampNeg < iat.length := by omega
  obtain ⟨slot, hslot⟩ : ∃ slot, iat[ref.importIndex.toNatClampNeg]? = some slot :=
    ⟨_, getElem?_eq_getElem hin⟩
  have hget : iat.getD ref.importIndex.toNatClampNeg 0 = slot := by
    rw [getD_eq_getElem?_getD, hslot]
    rfl
  refine ⟨slot, hslot, ?_⟩
  rw [hget] at h
  have htarget := toInt_word slot
  have hlt := slot.toNat_lt
  have hwritten := displacementPatch_distance hpos (by omega) (by omega) h
  rwa [htarget] at hwritten

/-! ## All of them -/

theorem mapM_getElem? {α β ε : Type} {f : α → Except ε β} {xs : List α} {ys : List β}
    (h : xs.mapM f = .ok ys) : ys.length = xs.length ∧
      ∀ (k : Nat) x, xs[k]? = some x → ∃ y, ys[k]? = some y ∧ f x = .ok y := by
  induction xs generalizing ys with
  | nil =>
    cases h
    refine ⟨rfl, fun k x hx => ?_⟩
    cases hx
  | cons x xs ih =>
    rw [mapM_cons] at h
    obtain ⟨y, hy, h⟩ := bind_eq_ok h
    obtain ⟨ys', hys, h⟩ := bind_eq_ok h
    cases h
    obtain ⟨hlength, hall⟩ := ih hys
    refine ⟨congrArg (· + 1) hlength, fun k x' hx' => ?_⟩
    cases k with
    | zero =>
      cases hx'
      exact ⟨y, rfl, hy⟩
    | succ k => exact hall k x' hx'

/-- The places of all references, in the order they are written in. -/
def displacements (dataRefs : List MachineDataRef) (importRefs : List PeImportRef) : List Int64 :=
  dataRefs.map MachineDataRef.displacement ++ importRefs.map PeImportRef.displacement

/-- Two references that are not written over each other. -/
def Clear (d d' : Int64) : Prop := d.toInt + 4 ≤ d'.toInt ∨ d'.toInt + 4 ≤ d.toInt

/-- No later reference is written over one of them. -/
def Kept (dataRefs : List MachineDataRef) (importRefs : List PeImportRef) (k : Nat)
    (d : Int64) : Prop :=
  ∀ (j : Nat) d', k < j → (displacements dataRefs importRefs)[j]? = some d' → Clear d d'

/-- The patches of all references. -/
structure Patched (codeLength : Int64) (ds : List Int64) (ps : List (Patch UInt8)) : Prop where
  length : ps.length = ds.length
  written : ∀ (k : Nat) d, ds[k]? = some d → ∃ p distance, ps[k]? = some p ∧
    Written codeLength d distance p

variable {ps : List (Patch UInt8)} {ds : List Int64}

theorem Patched.exists {codeLength : Int64} (h : Patched codeLength ds ps) {k : Nat}
    (hp : ps[k]? = some p) :
    ∃ d distance, ds[k]? = some d ∧ Written codeLength d distance p := by
  have hk := h.length ▸ (List.getElem?_eq_some_iff.mp hp).1
  obtain ⟨p', distance, hp', hwritten⟩ := h.written k ds[k] (getElem?_eq_getElem hk)
  obtain rfl := Option.some.inj (hp.symm.trans hp')
  exact ⟨ds[k], distance, getElem?_eq_getElem hk, hwritten⟩

theorem Patched.append {codeLength : Int64} {ds ds' : List Int64} {ps ps' : List (Patch UInt8)}
    (h : Patched codeLength ds ps) (h' : Patched codeLength ds' ps') :
    Patched codeLength (ds ++ ds') (ps ++ ps') where
  length := by rw [length_append, length_append, h.length, h'.length]
  written := by
    intro k d hd
    rw [getElem?_append] at hd ⊢
    rw [h.length]
    split at hd
    · next hk =>
      rw [if_pos hk]
      exact h.written k d hd
    · next hk =>
      rw [if_neg hk]
      exact h'.written _ d hd

theorem Patched.inside {code : List UInt8} (hcode : code.length < 2 ^ 32)
    (h : Patched (Int64.ofNat code.length) ds ps) :
    ∀ p ∈ ps, p.stop ≤ code.length := by
  intro p hp
  obtain ⟨k, hk⟩ := mem_iff_getElem?.mp hp
  obtain ⟨d, distance, -, hwritten⟩ := h.exists hk
  have hstop := hwritten.stop
  rw [Int64.toInt_ofNat_of_lt (by omega)] at hstop
  omega

theorem Patched.distance {code : List UInt8} (hcode : code.length < 2 ^ 32)
    (h : Patched (Int64.ofNat code.length) ds ps) {k : Nat} {d : Int64} {distance : Int}
    (hp : ps[k]? = some p) (hwritten : Written (Int64.ofNat code.length) d distance p)
    (hkept : ∀ (j : Nat) d', k < j → ds[j]? = some d' → Clear d d') :
    i32At (puts code ps) d.toNatClampNeg = distance ∧ d.toNatClampNeg + 4 ≤ code.length := by
  have hstart := hwritten.start
  have hsize := hwritten.size
  have hpos : 0 ≤ d := Int64.le_iff_toInt_le.mpr (by
    rw [← hstart]
    exact Int.natCast_nonneg _)
  have hcast := Int64.cast_toNatClampNeg d hpos
  have hplace : d.toNatClampNeg = p.start := by omega
  have hapart : ∀ (j : Nat) q, k < j → ps[j]? = some q → p.Apart q := by
    intro j q hj hq
    obtain ⟨d', distance', hd', hwritten'⟩ := h.exists hq
    have hclear := hkept j d' hj hd'
    have hstart' := hwritten'.start
    have hsize' := hwritten'.size
    rw [Clear] at hclear
    rw [Patch.Apart, Patch.stop, Patch.stop, hsize, hsize']
    omega
  have hslice := slice_puts_getElem? (h.inside hcode) hp hapart
  have hstop := h.inside hcode p (mem_of_getElem? hp)
  have hend : p.stop = p.start + p.content.length := rfl
  rw [hsize] at hslice hend
  have hword : u32At (puts code ps) d.toNatClampNeg = Wire.ofLittleEndian p.content := by
    rw [u32At, hplace, hslice]
  refine ⟨?_, by omega⟩
  unfold i32At
  rw [hword]
  exact hwritten.content

theorem patched_refs {codeLength rdataLength : Int64} {rdataRVA : UInt32}
    {dataRefs : List MachineDataRef} {importRefs : List PeImportRef}
    {dataPatches importPatches : List (Patch UInt8)} (hrdata : rdataLength.toInt < 2 ^ 32)
    (hiat : iat.length < 2 ^ 32)
    (hdata : dataRefs.mapM (dataPatch codeLength rdataLength rdataRVA) = .ok dataPatches)
    (himport : importRefs.mapM (importPatch codeLength iat) = .ok importPatches) :
    Patched codeLength (displacements dataRefs importRefs) (dataPatches ++ importPatches) := by
  obtain ⟨hlength, hall⟩ := mapM_getElem? hdata
  obtain ⟨hlength', hall'⟩ := mapM_getElem? himport
  apply Patched.append
  · refine ⟨by rw [hlength, length_map], fun k d hd => ?_⟩
    rw [getElem?_map, Option.map_eq_some_iff] at hd
    obtain ⟨ref, href, rfl⟩ := hd
    obtain ⟨p, hp, hpatch⟩ := hall k ref href
    exact ⟨p, _, hp, (dataPatch_spec hrdata hpatch).2.2⟩
  · refine ⟨by rw [hlength', length_map], fun k d hd => ?_⟩
    rw [getElem?_map, Option.map_eq_some_iff] at hd
    obtain ⟨ref, href, rfl⟩ := hd
    obtain ⟨p, hp, hpatch⟩ := hall' k ref href
    obtain ⟨slot, -, hwritten⟩ := importPatch_spec hiat hpatch
    exact ⟨p, _, hp, hwritten⟩

end Kryndel.PE
