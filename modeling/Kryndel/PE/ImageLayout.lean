import Kryndel.PE.ImportTable
import Kryndel.PE.References
import Kryndel.Wire.Placement
import Mathlib.Algebra.BigOperators.Group.List.Basic

/-!
# The layout of an image

Sizes and addresses are computed with 32 and 64 bits and written into the headers at places that
do not touch each other. What an image says of itself is what the same sums are without a bound,
so its sections are in order and apart from each other, and what the code refers to is found
where the code looks for it.
-/

namespace Kryndel.PE

open Patches Placement List

/-! ## Sizes and addresses -/

theorem toNat_nextRVA (base : UInt64) (n : Nat) (hbase : base.toNat ≤ 2 ^ 33) (hn : n ≤ 2 ^ 34) :
    (nextRVA base n).toNat = base.toNat + up 4096 n := by
  have hvalue : (UInt64.ofNat n).toNat = n := by
    rw [UInt64.toNat_ofNat']
    omega
  have halign : peSectionAlignment.toUInt64.toNat = 4096 := rfl
  have hup : (peAlign64 (UInt64.ofNat n) peSectionAlignment.toUInt64).toNat = up 4096 n := by
    rw [peAlign64, toNat_align64 _ (k := 12) halign (by omega), hvalue, halign]
  have hlt := up_lt (show 0 < 4096 by decide) n
  rw [nextRVA, UInt64.toNat_add, hup]
  omega

theorem toNat_peAlign {n : Nat} (hn : n + 512 ≤ 2 ^ 32) :
    (peAlign (UInt32.ofNat n) peFileAlignment).toNat = up 512 n := by
  have hvalue : (UInt32.ofNat n).toNat = n := by
    rw [UInt32.toNat_ofNat']
    omega
  have halign : peFileAlignment.toNat = 512 := rfl
  rw [peAlign, toNat_align32 _ (k := 9) halign (by omega), hvalue, halign]

theorem toNat_nextRaw (base : UInt64) {n : Nat} (hbase : base.toNat ≤ 2 ^ 35)
    (hn : n + 512 ≤ 2 ^ 32) : (nextRaw base n).toNat = base.toNat + up 512 n := by
  have hlt := up_lt (show 0 < 512 by decide) n
  rw [nextRaw, UInt64.toNat_add, UInt32.toNat_toUInt64, toNat_peAlign hn]
  omega

/-- The sections are placed one after the other, in memory and in the file. -/
structure Laid (sizes : List Nat) (layout : Layout) (fileSize : Nat) : Prop where
  lengths : [layout.codeLength, layout.rdataLength, layout.idataLength,
    layout.pdataLength].map UInt32.toNat = sizes
  addresses : [peTextRVA, layout.rdataRVA, layout.idataRVA, layout.pdataRVA].map UInt32.toNat =
    place 4096 4096 sizes
  places : [peHeaderSize, layout.rdataRaw, layout.idataRaw, layout.pdataRaw].map UInt32.toNat =
    place 512 1024 sizes
  imageSize : layout.imageSize.toNat = total 4096 4096 sizes
  fileLength : fileSize = total 512 1024 sizes
  imageEnd : layout.pdataRVA.toNat + layout.pdataLength.toNat ≤ maxUint32.toNat
  fileEnd : fileSize ≤ maxUint32.toNat

/-- What is there when an image has been made. -/
structure Built (code rdata : List UInt8) (dataRefs : List MachineDataRef)
    (importRefs : List PeImportRef) (functions : List PeFunctionRange) (image : List UInt8)
    (layout : Layout) (fileSize : Nat) (dataPatches importPatches : List (Patch UInt8))
    (pdata : List UInt8) : Prop where
  laid : Laid [code.length, (filled rdata).length, 264, pdata.length] layout fileSize
  dataPatched : dataRefs.mapM (dataPatch (Int64.ofNat code.length)
    (Int64.ofNat (filled rdata).length) layout.rdataRVA) = .ok dataPatches
  importPatched : importRefs.mapM (importPatch (Int64.ofNat code.length)
    (peImportData layout.idataRVA).2) = .ok importPatches
  unwound : peRuntimeFunctionData functions layout.pdataRVA layout.codeLength =
    .ok (pdata, layout.tableSize)
  written : image = writeImage (puts code (dataPatches ++ importPatches)) (filled rdata)
    (peImportData layout.idataRVA).1 pdata (peImportData layout.idataRVA).2 layout fileSize

theorem length_filled {rdata : List UInt8} (h : rdata.length < 2 ^ 32) :
    0 < (filled rdata).length ∧ (filled rdata).length < 2 ^ 32 := by
  rw [filled]
  split
  · exact ⟨Nat.one_pos, by decide⟩
  · exact ⟨by omega, h⟩

/-- The address behind a section and the end of the image: nothing is cut to 32 bits. -/
theorem laid_of {C R P : Nat} {r₁ r₂ r₃ f₁ f₂ f₃ f₄ imageEnd imageSize : UInt64}
    {tableSize : UInt32} (hC : C < 2 ^ 32) (hR : R < 2 ^ 32) (hP : P ≤ 2 ^ 33)
    (hr₁ : r₁ = nextRVA peTextRVA.toUInt64 C) (hr₂ : r₂ = nextRVA r₁ R)
    (hr₃ : r₃ = nextRVA r₂ 264) (hf₁ : f₁ = nextRaw peHeaderSize.toUInt64 C)
    (hf₂ : f₂ = nextRaw f₁ R) (hf₃ : f₃ = nextRaw f₂ 264) (hf₄ : f₄ = nextRaw f₃ P)
    (himageEnd : imageEnd = r₃.toUInt32.toUInt64 + UInt64.ofNat P)
    (himageSize : imageSize = peAlign64 imageEnd peSectionAlignment.toUInt64)
    (hle₁ : ¬r₁ > maxUint32) (hle₂ : ¬r₂ > maxUint32) (hle₃ : ¬r₃ > maxUint32)
    (hend : ¬imageEnd > maxUint32)
    (hsize : ¬(f₄ > maxUint32 ∨ imageSize > maxUint32 ∨ f₄ > 0x7FFFFFFFFFFFFFFF)) :
    Laid [C, R, 264, P]
      { codeLength := UInt32.ofNat C
        rdataLength := UInt32.ofNat R
        idataLength := UInt32.ofNat 264
        pdataLength := UInt32.ofNat P
        rdataRVA := r₁.toUInt32
        idataRVA := r₂.toUInt32
        pdataRVA := r₃.toUInt32
        rdataRaw := f₁.toUInt32
        idataRaw := f₂.toUInt32
        pdataRaw := f₃.toUInt32
        imageSize := imageSize.toUInt32
        tableSize } f₄.toNat := by
  have hmax : maxUint32.toNat = 2 ^ 32 - 1 := rfl
  have htext : peTextRVA.toUInt64.toNat = 4096 := rfl
  have hheader : peHeaderSize.toUInt64.toNat = 1024 := rfl
  obtain ⟨hfile, hsize⟩ := not_or.mp hsize
  obtain ⟨hsize, -⟩ := not_or.mp hsize
  rw [gt_iff_lt, UInt64.not_lt, UInt64.le_iff_toNat_le, hmax] at hle₁ hle₂ hle₃ hend hfile hsize
  -- addresses
  have hn₁ := toNat_nextRVA peTextRVA.toUInt64 C (by omega) (by omega)
  rw [← hr₁, htext] at hn₁
  have hn₂ := toNat_nextRVA r₁ R (by omega) (by omega)
  rw [← hr₂, hn₁] at hn₂
  have hn₃ := toNat_nextRVA r₂ 264 (by omega) (by omega)
  rw [← hr₃, hn₂] at hn₃
  have hnend : imageEnd.toNat = r₃.toNat + P := by
    rw [himageEnd, UInt64.toNat_add, UInt32.toNat_toUInt64, UInt64.toNat_toUInt32,
      UInt64.toNat_ofNat']
    omega
  have hnsize : imageSize.toNat = r₃.toNat + up 4096 P := by
    have halign : peSectionAlignment.toUInt64.toNat = 4096 := rfl
    have hdvd : 4096 ∣ r₃.toNat := by
      rw [hn₃]
      exact dvd_total (show 4096 ∣ 4096 by decide) [C, R, 264]
    rw [himageSize, peAlign64, toNat_align64 _ (k := 12) halign (by omega), hnend, halign,
      up_add (by decide) hdvd]
  -- places in the file
  have hleC := le_up (show 0 < 4096 by decide) C
  have hleR := le_up (show 0 < 4096 by decide) R
  have hm₁ := toNat_nextRaw peHeaderSize.toUInt64 (n := C) (by omega) (by omega)
  rw [← hf₁, hheader] at hm₁
  have hltC := up_lt (show 0 < 512 by decide) C
  have hm₂ := toNat_nextRaw f₁ (n := R) (by omega) (by omega)
  rw [← hf₂, hm₁] at hm₂
  have hltR := up_lt (show 0 < 512 by decide) R
  have hm₃ := toNat_nextRaw f₂ (n := 264) (by omega) (by omega)
  rw [← hf₃, hm₂] at hm₃
  have hltI : up 512 264 = 512 := rfl
  have hm₄ := toNat_nextRaw f₃ (n := P) (by omega) (by omega)
  rw [← hf₄, hm₃] at hm₄
  -- nothing is cut
  have hcut : ∀ n, n < 2 ^ 32 → (UInt32.ofNat n).toNat = n := by
    intro n hn
    rw [UInt32.toNat_ofNat']
    omega
  have hnarrow : ∀ x : UInt64, x.toNat < 2 ^ 32 → x.toUInt32.toNat = x.toNat := by
    intro x hx
    rw [UInt64.toNat_toUInt32]
    omega
  constructor
  · simp only [map_cons, map_nil, hcut C hC, hcut R hR, hcut P (by omega),
      hcut 264 (by decide)]
  · simp only [map_cons, map_nil, place, hnarrow r₁ (by omega), hnarrow r₂ (by omega),
      hnarrow r₃ (by omega), hn₁, hn₂, hn₃]
    rfl
  · simp only [map_cons, map_nil, place, hnarrow f₁ (by omega), hnarrow f₂ (by omega),
      hnarrow f₃ (by omega), hm₁, hm₂, hm₃]
    rfl
  · rw [hnarrow imageSize (by omega), hnsize, hn₃]
    rfl
  · exact hm₄
  · rw [hnarrow r₃ (by omega), hcut P (by omega), ← hnend, hmax]
    exact hend
  · rw [hmax]
    exact hfile

theorem exists_built {code rdata : List UInt8} {dataRefs : List MachineDataRef}
    {importRefs : List PeImportRef} {functions : List PeFunctionRange} {image : List UInt8}
    (h : buildDirectDynamicPE code rdata dataRefs importRefs functions = .ok image) :
    0 < code.length ∧ ∃ layout fileSize dataPatches importPatches pdata, Built code rdata dataRefs
      importRefs functions image layout fileSize dataPatches importPatches pdata := by
  obtain ⟨hcode, h⟩ := ite_throw_eq_ok.mp h
  obtain ⟨hfunctions, h⟩ := ite_throw_eq_ok.mp h
  obtain ⟨hrdata, h⟩ := ite_throw_eq_ok.mp h
  obtain ⟨hidata, h⟩ := ite_throw_eq_ok.mp h
  obtain ⟨dataPatches, hdataPatches, h⟩ := bind_eq_ok h
  obtain ⟨importPatches, himportPatches, h⟩ := bind_eq_ok h
  obtain ⟨hpdata, h⟩ := ite_throw_eq_ok.mp h
  obtain ⟨unwind, hunwind, h⟩ := bind_eq_ok h
  obtain ⟨hend, h⟩ := ite_throw_eq_ok.mp h
  obtain ⟨hsize, h⟩ := ite_throw_eq_ok.mp h
  have hmax : maxUint32.toNat = 2 ^ 32 - 1 := rfl
  obtain ⟨hC0, hC, hR'⟩ : 0 < code.length ∧ code.length < 2 ^ 32 ∧ rdata.length < 2 ^ 32 := by
    omega
  obtain ⟨hR0, hR⟩ := length_filled hR'
  -- the code is as long as it was
  have hpatched := patched_refs (by rw [Int64.toInt_ofNat_of_lt] <;> omega)
    (by rw [iat_eq, length_map]; decide) hdataPatches himportPatches
  have hlength := length_puts (hpatched.inside hC)
  have himage := Except.ok.inj h
  rw [length_peImportData] at hpdata hunwind hend hsize himage
  rw [hlength] at hunwind hsize himage
  have hP : unwind.1.length ≤ 2 ^ 33 := by
    obtain ⟨ordered, -, htable, hrows⟩ := peRuntimeFunctionData_spec hunwind
    have hlt := unwind.2.toNat_lt
    rw [hrows.length]
    omega
  exact ⟨hC0, _, _, dataPatches, importPatches, unwind.1, laid_of hC hR hP rfl rfl rfl rfl rfl rfl
    rfl rfl rfl hrdata hidata hpdata hend hsize, hdataPatches, himportPatches, hunwind,
    himage.symm⟩

/-! ## What is written where -/

/-- Where a patch begins and ends. -/
def span (p : Patch UInt8) : Nat × Nat := (p.start, p.stop)

theorem span_pePut16 (start : Nat) (v : UInt16) : span (pePut16 start v) = (start, start + 2) := rfl

theorem span_pePut32 (start : Nat) (v : UInt32) : span (pePut32 start v) = (start, start + 4) := rfl

theorem span_pePut64 (start : Nat) (v : UInt64) : span (pePut64 start v) = (start, start + 8) := rfl

/-- A layout of nothing. -/
def emptyLayout : Layout := ⟨0, 0, 0, 0, 0, 0, 0, 0, 0, 0, 0, 0⟩

theorem span_headerPatches (layout : Layout) (iat : List UInt32) :
    (headerPatches layout iat).map span = (headerPatches emptyLayout []).map span := by
  simp only [headerPatches, peSection, map_append, map_cons, map_nil, span_pePut16,
    span_pePut32, span_pePut64]

theorem headers_inside (layout : Layout) (iat : List UInt32) :
    ∀ p ∈ headerPatches layout iat, p.stop ≤ 1024 := by
  have hspans : ∀ a ∈ (headerPatches emptyLayout []).map span, a.2 ≤ 1024 := by
    decide +kernel
  intro p hp
  rw [← span_headerPatches layout iat] at hspans
  exact hspans (span p) (mem_map_of_mem hp)

theorem headers_apart (layout : Layout) (iat : List UInt32) :
    (headerPatches layout iat).Pairwise Patch.Apart := by
  have hspans : ((headerPatches emptyLayout []).map span).Pairwise
      fun a b => a.2 ≤ b.1 ∨ b.2 ≤ a.1 := by
    decide +kernel
  rw [← span_headerPatches layout iat, pairwise_map] at hspans
  exact hspans

/-- The sections of an image, as they are written. -/
def sectionPatches (code rdata idata pdata : List UInt8) (layout : Layout) : List (Patch UInt8) :=
  [⟨peHeaderSize.toNat, code⟩, ⟨layout.rdataRaw.toNat, rdata⟩, ⟨layout.idataRaw.toNat, idata⟩,
    ⟨layout.pdataRaw.toNat, pdata⟩]

theorem sections_apart {code rdata idata pdata : List UInt8} {layout : Layout} {fileSize : Nat}
    (h : Laid [code.length, rdata.length, idata.length, pdata.length] layout fileSize) :
    (∀ p ∈ sectionPatches code rdata idata pdata layout, 1024 ≤ p.start ∧ p.stop ≤ fileSize) ∧
      (sectionPatches code rdata idata pdata layout).Pairwise Patch.Apart := by
  have hplaces := h.places
  have hsize := h.fileLength
  simp only [map_cons, map_nil, place, total, List.cons.injEq] at hplaces hsize
  have hC := le_up (show 0 < 512 by decide) code.length
  have hR := le_up (show 0 < 512 by decide) rdata.length
  have hI := le_up (show 0 < 512 by decide) idata.length
  have hP := le_up (show 0 < 512 by decide) pdata.length
  simp only [sectionPatches, forall_mem_cons, pairwise_cons, Patch.Apart, Patch.stop]
  refine ⟨⟨by omega, by omega, by omega, by omega, forall_mem_nil _⟩,
    ⟨by omega, by omega, by omega, forall_mem_nil _⟩,
    ⟨by omega, by omega, forall_mem_nil _⟩, ⟨by omega, forall_mem_nil _⟩,
    forall_mem_nil _, List.Pairwise.nil⟩

variable {iat : List UInt32}

theorem writeImage_spec {code rdata idata pdata : List UInt8} {layout : Layout} {fileSize : Nat}
    (h : Laid [code.length, rdata.length, idata.length, pdata.length] layout fileSize) :
    (writeImage code rdata idata pdata iat layout fileSize).length = fileSize ∧
      ∀ p ∈ sectionPatches code rdata idata pdata layout ++ headerPatches layout iat,
        slice (writeImage code rdata idata pdata iat layout fileSize) p.start p.content.length =
          p.content := by
  obtain ⟨hsections, hapart⟩ := sections_apart h
  have hheaders := headers_inside layout iat
  have hsize : 1024 ≤ fileSize := by
    rw [h.fileLength]
    exact le_total ..
  have hfit : ∀ p ∈ sectionPatches code rdata idata pdata layout ++ headerPatches layout iat,
      p.stop ≤ (List.replicate fileSize (0 : UInt8)).length := by
    intro p hp
    rw [length_replicate]
    rcases mem_append.mp hp with hp | hp
    · exact (hsections p hp).2
    · exact Nat.le_trans (hheaders p hp) hsize
  have hpairs : (sectionPatches code rdata idata pdata layout ++
      headerPatches layout iat).Pairwise Patch.Apart := by
    refine pairwise_append.mpr ⟨hapart, headers_apart layout iat, fun p hp q hq => ?_⟩
    exact Or.inr (Nat.le_trans (hheaders q hq) (hsections p hp).1)
  refine ⟨?_, fun p hp => slice_puts_mem hfit hpairs hp⟩
  rw [writeImage, ← sectionPatches, length_puts hfit, length_replicate]

/-! ## What the headers say -/

/-- What the header of a section says. -/
structure SectionHeader where
  virtualSize : Nat
  virtualAddress : Nat
  rawSize : Nat
  rawPointer : Nat

/-- The header of a section in an image. -/
def sectionHeader (image : List UInt8) (i : Nat) : SectionHeader where
  virtualSize := u32At image (sectionHeaders + 40 * i + 8)
  virtualAddress := u32At image (sectionHeaders + 40 * i + 12)
  rawSize := u32At image (sectionHeaders + 40 * i + 16)
  rawPointer := u32At image (sectionHeaders + 40 * i + 20)

/-- The headers of the four sections. -/
def sectionsOf (image : List UInt8) : List SectionHeader := (List.range 4).map (sectionHeader image)

def sizeOfImage (image : List UInt8) : Nat := u32At image (optionalHeader + 56)

theorem u32At_header {image : List UInt8} {layout : Layout}
    (h : ∀ p ∈ headerPatches layout iat, slice image p.start p.content.length = p.content)
    {start : Nat} {v : UInt32} (hp : pePut32 start v ∈ headerPatches layout iat) :
    u32At image start = v.toNat :=
  u32At_of_slice (h _ hp) v.toNat_lt

theorem sectionsOf_eq {image : List UInt8} {layout : Layout}
    (h : ∀ p ∈ headerPatches layout iat, slice image p.start p.content.length = p.content) :
    sectionsOf image =
      [⟨layout.codeLength.toNat, peTextRVA.toNat,
          (peAlign layout.codeLength peFileAlignment).toNat, peHeaderSize.toNat⟩,
        ⟨layout.rdataLength.toNat, layout.rdataRVA.toNat,
          (peAlign layout.rdataLength peFileAlignment).toNat, layout.rdataRaw.toNat⟩,
        ⟨layout.idataLength.toNat, layout.idataRVA.toNat,
          (peAlign layout.idataLength peFileAlignment).toNat, layout.idataRaw.toNat⟩,
        ⟨layout.pdataLength.toNat, layout.pdataRVA.toNat,
          (peAlign layout.pdataLength peFileAlignment).toNat, layout.pdataRaw.toNat⟩] := by
  have hsection : ∀ i name rva length raw flags,
      (∀ p ∈ peSection (sectionHeaders + 40 * i) name rva length raw flags,
        p ∈ headerPatches layout iat) →
      sectionHeader image i = ⟨length.toNat, rva.toNat, (peAlign length peFileAlignment).toNat,
        raw.toNat⟩ := by
    intro i name rva length raw flags hmem
    simp only [peSection, forall_mem_cons] at hmem
    obtain ⟨-, hlength, hrva, haligned, hraw, -⟩ := hmem
    simp only [sectionHeader, u32At_header h hlength, u32At_header h hrva,
      u32At_header h haligned, u32At_header h hraw]
  have hfour : sectionsOf image = [sectionHeader image 0, sectionHeader image 1,
    sectionHeader image 2, sectionHeader image 3] := rfl
  rw [hfour, hsection 0 ".text" peTextRVA layout.codeLength peHeaderSize 0x60000020,
    hsection 1 ".rdata" layout.rdataRVA layout.rdataLength layout.rdataRaw 0x40000040,
    hsection 2 ".idata" layout.idataRVA layout.idataLength layout.idataRaw 0xc0000040,
    hsection 3 ".pdata" layout.pdataRVA layout.pdataLength layout.pdataRaw 0x40000040]
  all_goals
    intro p hp
    simp only [headerPatches, mem_append]
    tauto

/-- The sizes and addresses of the sections of an image are what they would be if numbers had
no bound. -/
structure Exact (sizes : List Nat) (image : List UInt8) : Prop where
  own : (sectionsOf image).map SectionHeader.virtualSize = sizes
  addresses : (sectionsOf image).map SectionHeader.virtualAddress = place 4096 4096 sizes
  rawSizes : (sectionsOf image).map SectionHeader.rawSize = sizes.map (up 512)
  places : (sectionsOf image).map SectionHeader.rawPointer = place 512 1024 sizes
  codeSize : u32At image (optionalHeader + 4) = ((sizes.take 1).map (up 512)).sum
  dataSize : u32At image (optionalHeader + 8) = ((sizes.drop 1).map (up 512)).sum
  imageSize : sizeOfImage image = total 4096 4096 sizes
  length : image.length = total 512 1024 sizes

/-- The sections of an image are in order, aligned, inside of it and apart from each other. -/
structure WellLaid (image : List UInt8) : Prop where
  aligned : ∀ h ∈ sectionsOf image, 4096 ∣ h.virtualAddress ∧ 512 ∣ h.rawPointer ∧ 512 ∣ h.rawSize
  inside : ∀ h ∈ sectionsOf image, 4096 ≤ h.virtualAddress ∧
    h.virtualAddress + h.virtualSize ≤ sizeOfImage image ∧ 1024 ≤ h.rawPointer ∧
      h.virtualSize ≤ h.rawSize ∧ h.rawPointer + h.rawSize ≤ image.length
  apart : (sectionsOf image).Pairwise fun h next =>
    h.virtualAddress + h.virtualSize ≤ next.virtualAddress ∧
      h.rawPointer + h.rawSize ≤ next.rawPointer
  imageSize : 4096 ∣ sizeOfImage image

theorem Exact.wellLaid {sizes : List Nat} {image : List UInt8} (h : Exact sizes image) :
    WellLaid image := by
  have hraw : ∀ s ∈ sectionsOf image, s.rawSize = up 512 s.virtualSize := by
    have hsizes := h.rawSizes
    rw [← h.own, map_map] at hsizes
    exact map_inj_left.mp hsizes
  have haddresses : (place 4096 4096 sizes).zip sizes =
      (sectionsOf image).map fun s => (s.virtualAddress, s.virtualSize) := by
    rw [← h.addresses, ← h.own, zip_map']
  have hplaces : (place 512 1024 sizes).zip sizes =
      (sectionsOf image).map fun s => (s.rawPointer, s.virtualSize) := by
    rw [← h.places, ← h.own, zip_map']
  have hinside := place_inside (show 4096 ∣ 4096 by decide) sizes
  have hinside' := place_inside (show 512 ∣ 1024 by decide) sizes
  have hapart := place_apart (show 4096 ∣ 4096 by decide) sizes
  have hapart' := place_apart (show 512 ∣ 1024 by decide) sizes
  rw [haddresses] at hinside hapart
  rw [hplaces] at hinside' hapart'
  refine ⟨?_, ?_, ?_, ?_⟩
  · intro s hs
    have hvirtual := hinside _ (mem_map_of_mem hs)
    have hfile := hinside' _ (mem_map_of_mem hs)
    exact ⟨hvirtual.1, hfile.1, hraw s hs ▸ dvd_up 512 s.virtualSize⟩
  · intro s hs
    have hvirtual := hinside _ (mem_map_of_mem hs)
    have hfile := hinside' _ (mem_map_of_mem hs)
    have hle := le_up (show 0 < 4096 by decide) s.virtualSize
    have hle' := le_up (show 0 < 512 by decide) s.virtualSize
    rw [h.imageSize, h.length, hraw s hs]
    exact ⟨hvirtual.2.1, Nat.le_trans (Nat.add_le_add_left hle _) hvirtual.2.2, hfile.2.1, hle',
      hfile.2.2⟩
  · rw [pairwise_map] at hapart hapart'
    refine (hapart.and hapart').imp_of_mem ?_
    intro s next hs _ hboth
    have hle := le_up (show 0 < 4096 by decide) s.virtualSize
    rw [hraw s hs]
    exact ⟨Nat.le_trans (Nat.add_le_add_left hle _) hboth.1, hboth.2⟩
  · rw [h.imageSize]
    exact dvd_total (by decide) sizes

/-! ## What the code refers to -/

/-- Where a reference leads when its instruction runs: from the end of the instruction on by the
distance that is written in it. -/
def Resolves (image : List UInt8) (displacement instructionEnd : Int64) (target : Int) : Prop :=
  (peTextRVA.toNat : Int) + instructionEnd.toInt +
    i32At image (peHeaderSize.toNat + displacement.toNatClampNeg) = target

/-- The slot of an import at an address: it points to the name of the function. -/
def ImportSlot (image : List UInt8) (i : Nat) (address : Int) : Prop :=
  let idata := sectionHeader image 2
  ∃ name start, importNames[i]? = some name ∧ address = idata.virtualAddress + 112 + 8 * i ∧
    slice image (idata.rawPointer + (112 + 8 * i)) 8 =
      Wire.littleEndian 8 (idata.virtualAddress + start) ∧
    slice image (idata.rawPointer + start) (2 + (text name).length + 1) =
      [0, 0] ++ text name ++ [0] ∧
    start + (2 + (text name).length + 1) ≤ idata.virtualSize

/-- The row of a function in the table for unwinding. -/
def UnwindRow (image : List UInt8) (k : Nat) (f : PeFunctionRange) : Prop :=
  let pdata := sectionHeader image 3
  ∃ info start, peFrameUnwindInfo f.frame = .ok info ∧
    (u32At image (pdata.rawPointer + 12 * k) : Int) = peTextRVA.toNat + f.begin.toInt ∧
    (u32At image (pdata.rawPointer + (12 * k + 4)) : Int) = peTextRVA.toNat + f.finish.toInt ∧
    u32At image (pdata.rawPointer + (12 * k + 8)) = pdata.virtualAddress + start ∧
    slice image (pdata.rawPointer + start) info.length = info ∧
    start + info.length ≤ pdata.virtualSize

/-! ## Images that have been made -/

section Built

variable {code rdata : List UInt8} {dataRefs : List MachineDataRef} {importRefs : List PeImportRef}
  {functions : List PeFunctionRange} {image : List UInt8} {layout : Layout} {fileSize : Nat}
  {dataPatches importPatches : List (Patch UInt8)} {pdata : List UInt8}

namespace Built

variable (h : Built code rdata dataRefs importRefs functions image layout fileSize dataPatches
  importPatches pdata)

include h

theorem lengths : code.length = layout.codeLength.toNat ∧
      (filled rdata).length = layout.rdataLength.toNat ∧ 264 = layout.idataLength.toNat ∧
        pdata.length = layout.pdataLength.toNat := by
  have hlengths := h.laid.lengths
  simp only [map_cons, map_nil, List.cons.injEq] at hlengths
  obtain ⟨hC, hR, hI, hP, -⟩ := hlengths
  exact ⟨hC.symm, hR.symm, hI.symm, hP.symm⟩

theorem patched : Patched (Int64.ofNat code.length)
      (displacements dataRefs importRefs) (dataPatches ++ importPatches) := by
  obtain ⟨-, hR, -⟩ := h.lengths
  have hlt := layout.rdataLength.toNat_lt
  apply patched_refs _ _ h.dataPatched h.importPatched
  · rw [Int64.toInt_ofNat_of_lt] <;> omega
  · rw [iat_eq, length_map]
    decide

theorem code_lt : code.length < 2 ^ 32 := by
  rw [h.lengths.1]
  exact layout.codeLength.toNat_lt

theorem written_spec : image.length = fileSize ∧
      ∀ p ∈ sectionPatches (puts code (dataPatches ++ importPatches)) (filled rdata)
          (peImportData layout.idataRVA).1 pdata layout ++
            headerPatches layout (peImportData layout.idataRVA).2,
        slice image p.start p.content.length = p.content := by
  have hlaid := h.laid
  rw [← length_puts (h.patched.inside h.code_lt), ← length_peImportData layout.idataRVA] at hlaid
  rw [h.written]
  exact writeImage_spec hlaid

theorem headers :
    ∀ p ∈ headerPatches layout (peImportData layout.idataRVA).2,
      slice image p.start p.content.length = p.content :=
  fun p hp => h.written_spec.2 p (mem_append_right _ hp)

theorem exact :
    Exact [code.length, (filled rdata).length, 264, pdata.length] image := by
  have hsections := sectionsOf_eq h.headers
  obtain ⟨hC, hR, hI, hP⟩ := h.lengths
  have hsmall : ∀ x : UInt32, x.toNat + 512 ≤ 2 ^ 32 →
      (peAlign x peFileAlignment).toNat = up 512 x.toNat := by
    intro x hx
    have halign := toNat_peAlign hx
    rwa [UInt32.ofNat_toNat] at halign
  have hend := h.laid.imageEnd
  have hmax : maxUint32.toNat = 2 ^ 32 - 1 := rfl
  have haddresses := h.laid.addresses
  simp only [map_cons, map_nil, place, List.cons.injEq] at haddresses
  have hleC := le_up (show 0 < 4096 by decide) code.length
  have hleR := le_up (show 0 < 4096 by decide) (filled rdata).length
  constructor
  · rw [hsections, ← h.laid.lengths]
    rfl
  · rw [hsections, ← h.laid.addresses]
    rfl
  · rw [hsections]
    simp only [map_cons, map_nil, hsmall layout.codeLength (by omega),
      hsmall layout.rdataLength (by omega), hsmall layout.idataLength (by omega),
      hsmall layout.pdataLength (by omega), hC, hR, hI, hP]
  · rw [hsections, ← h.laid.places]
    rfl
  · have hcode : pePut32 (optionalHeader + 4) (peAlign layout.codeLength peFileAlignment) ∈
        headerPatches layout (peImportData layout.idataRVA).2 := by
      simp [headerPatches]
    rw [u32At_header h.headers hcode, hsmall layout.codeLength (by omega), ← hC]
    simp only [take_succ_cons, take_zero, map_cons, map_nil, sum_cons,
      sum_nil, Nat.add_zero]
  · have hdata : pePut32 (optionalHeader + 8) (peAlign layout.rdataLength peFileAlignment +
        peAlign layout.idataLength peFileAlignment + peAlign layout.pdataLength peFileAlignment) ∈
          headerPatches layout (peImportData layout.idataRVA).2 := by
      simp [headerPatches]
    have hfile := h.laid.fileLength
    have hfileEnd := h.laid.fileEnd
    simp only [total] at hfile
    rw [hR, hP, hI] at hfile
    rw [u32At_header h.headers hdata, UInt32.toNat_add, UInt32.toNat_add,
      hsmall layout.rdataLength (by omega), hsmall layout.idataLength (by omega),
      hsmall layout.pdataLength (by omega), hR, hP]
    simp only [drop_one, tail_cons, map_cons, map_nil, sum_cons,
      sum_nil]
    rw [hI]
    omega
  · rw [← h.laid.imageSize]
    apply u32At_header h.headers
    simp [headerPatches]
  · rw [h.written_spec.1, h.laid.fileLength]

theorem section_headers :
    (sectionHeader image 1).virtualAddress = layout.rdataRVA.toNat ∧
      ((sectionHeader image 2).virtualAddress = layout.idataRVA.toNat ∧
        (sectionHeader image 2).rawPointer = layout.idataRaw.toNat ∧
          (sectionHeader image 2).virtualSize = 264) ∧
      (sectionHeader image 3).virtualAddress = layout.pdataRVA.toNat ∧
        (sectionHeader image 3).rawPointer = layout.pdataRaw.toNat ∧
          (sectionHeader image 3).virtualSize = pdata.length := by
  have hsections := sectionsOf_eq h.headers
  obtain ⟨-, -, hI, hP⟩ := h.lengths
  rw [show sectionsOf image = [sectionHeader image 0, sectionHeader image 1,
    sectionHeader image 2, sectionHeader image 3] from rfl] at hsections
  simp only [List.cons.injEq] at hsections
  obtain ⟨-, hrdata, hidata, hpdata, -⟩ := hsections
  rw [hrdata, hidata, hpdata, hI, hP]
  exact ⟨rfl, ⟨rfl, rfl, rfl⟩, rfl, rfl, rfl⟩

variable {p : Patch UInt8}

theorem slice_section
    (hp : p ∈ sectionPatches (puts code (dataPatches ++ importPatches)) (filled rdata)
      (peImportData layout.idataRVA).1 pdata layout) {start n : Nat}
    (hn : start + n ≤ p.content.length) :
    slice image (p.start + start) n = slice p.content start n := by
  rw [← slice_slice hn, h.written_spec.2 p (mem_append_left _ hp)]

variable {k : Nat}

theorem resolves {d finish : Int64} {target : Int}
    (hp : (dataPatches ++ importPatches)[k]? = some p)
    (hwritten : Written (Int64.ofNat code.length) d (target - peTextRVA.toNat - finish.toInt) p)
    (hkept : Kept dataRefs importRefs k d) : Resolves image d finish target := by
  obtain ⟨hdistance, hin⟩ := h.patched.distance h.code_lt hp hwritten hkept
  have hlength := length_puts (h.patched.inside h.code_lt)
  rw [← hlength] at hin
  have hslice := h.slice_section (p := ⟨peHeaderSize.toNat, puts code (dataPatches ++
    importPatches)⟩) mem_cons_self hin
  have hword : u32At image (peHeaderSize.toNat + d.toNatClampNeg) =
      u32At (puts code (dataPatches ++ importPatches)) d.toNatClampNeg := by
    rw [u32At, u32At, hslice]
  unfold i32At at hdistance
  unfold Resolves i32At
  rw [hword, hdistance]
  omega

theorem dataRef_resolves {ref : MachineDataRef}
    (href : dataRefs[k]? = some ref) (hkept : Kept dataRefs importRefs k ref.displacement) :
    Resolves image ref.displacement ref.instructionEnd
      ((sectionHeader image 1).virtualAddress + ref.dataOffset.toInt) := by
  obtain ⟨p, hp, hpatch⟩ := (mapM_getElem? h.dataPatched).2 k ref href
  obtain ⟨-, hR, -⟩ := h.lengths
  have hlt := layout.rdataLength.toNat_lt
  obtain ⟨-, -, hwritten⟩ := dataPatch_spec (by rw [Int64.toInt_ofNat_of_lt] <;> omega) hpatch
  rw [h.section_headers.1]
  refine h.resolves ?_ hwritten hkept
  rw [getElem?_append_left (List.getElem?_eq_some_iff.mp hp).1, hp]

theorem importRef_resolves {ref : PeImportRef} (href : importRefs[k]? = some ref)
    (hkept : Kept dataRefs importRefs (dataRefs.length + k) ref.displacement) :
    ∃ address, Resolves image ref.displacement ref.instructionEnd address ∧
      ImportSlot image ref.importIndex.toNatClampNeg address := by
  obtain ⟨p, hp, hpatch⟩ := (mapM_getElem? h.importPatched).2 k ref href
  have hlength := (mapM_getElem? h.dataPatched).1
  obtain ⟨slot, hslot, hwritten⟩ := importPatch_spec
    (by rw [iat_eq, length_map]; decide) hpatch
  refine ⟨slot.toNat, h.resolves ?_ hwritten hkept, ?_⟩
  · rw [getElem?_append_right (by omega), hlength, Nat.add_sub_cancel_left, hp]
  · rw [iat_eq, getElem?_map, Option.map_eq_some_iff] at hslot
    obtain ⟨i, hi, rfl⟩ := hslot
    obtain ⟨hlt, rfl⟩ := List.getElem?_eq_some_iff.mp hi
    rw [getElem_range]
    rw [length_range] at hlt
    obtain ⟨-, ⟨haddress, hpointer, hsize⟩, -⟩ := h.section_headers
    have hrva : layout.idataRVA.toNat + 4096 < 2 ^ 32 := by
      have hpdata := layout.pdataRVA.toNat_lt
      have haddresses := h.laid.addresses
      simp only [map_cons, map_nil, place, List.cons.injEq] at haddresses
      obtain ⟨-, -, hidata, hnext, -⟩ := haddresses
      rw [← hidata, show up 4096 264 = 4096 from rfl] at hnext
      omega
    have hadd : ∀ n, n ≤ 264 →
        (layout.idataRVA + UInt32.ofNat n).toNat = layout.idataRVA.toNat + n := by
      intro n hn
      rw [UInt32.toNat_add, UInt32.toNat_ofNat']
      omega
    obtain ⟨name, hname⟩ : ∃ name, importNames[ref.importIndex.toNatClampNeg]? = some name :=
      ⟨_, getElem?_eq_getElem hlt⟩
    obtain ⟨start, hslot⟩ := slots layout.idataRVA hname
    have hinside := hslot.inside
    rw [length_peImportData] at hinside
    have hsection : (⟨layout.idataRaw.toNat, (peImportData layout.idataRVA).1⟩ : Patch UInt8) ∈
        sectionPatches (puts code (dataPatches ++ importPatches)) (filled rdata)
          (peImportData layout.idataRVA).1 pdata layout := by
      simp [sectionPatches]
    refine ⟨name, start, hname, ?_, ?_, ?_, by omega⟩
    · have htable : (layout.idataRVA + 112).toNat = layout.idataRVA.toNat + 112 :=
        hadd 112 (by decide)
      rw [haddress, UInt32.toNat_add, htable, UInt32.toNat_ofNat']
      omega
    · rw [haddress, hpointer, h.slice_section hsection (by rw [length_peImportData]; omega),
        hslot.address, UInt32.toNat_toUInt64, hadd start (by omega)]
    · rw [hpointer, h.slice_section hsection (by rw [length_peImportData]; omega), hslot.hint]

theorem unwind_rows (hbegin : ∀ f ∈ functions, 0 ≤ f.begin) :
    ∃ ordered : List PeFunctionRange, ordered.Perm functions ∧
      (ordered.Pairwise fun f g => f.finish ≤ g.begin) ∧
      (∀ f ∈ ordered, f.begin < f.finish ∧ f.finish.toInt ≤ code.length) ∧
      ∀ (k : Nat) f, ordered[k]? = some f → UnwindRow image k f := by
  obtain ⟨ordered, hperm, htable, hrows⟩ := peRuntimeFunctionData_spec h.unwound
  have hordered : ∀ f ∈ ordered, 0 ≤ f.begin := fun f hf => hbegin f (hperm.mem_iff.mp hf)
  refine ⟨ordered, hperm, pairwise_of_chain hrows.lies hrows.chain hordered, ?_, ?_⟩
  · intro f hf
    have hlies := lies_toInt (hrows.lies f hf) (hordered f hf)
    rw [h.lengths.1]
    exact ⟨(hrows.lies f hf).1, hlies.2.2⟩
  · intro k f hf
    obtain ⟨info, hrow⟩ := hrows.rows k f hf
    rw [Nat.zero_add] at hrow
    have hk := (List.getElem?_eq_some_iff.mp hf).1
    obtain ⟨hpos, hlt, hend⟩ := lies_toInt (hrows.lies f (mem_of_getElem? hf))
      (hordered f (mem_of_getElem? hf))
    obtain ⟨-, -, haddress, hpointer, hsize⟩ := h.section_headers
    have hlength := hrows.length
    have hinfo := length_unwindInfo hrow.known
    have hsection : (⟨layout.pdataRaw.toNat, pdata⟩ : Patch UInt8) ∈
        sectionPatches (puts code (dataPatches ++ importPatches)) (filled rdata)
          (peImportData layout.idataRVA).1 pdata layout := by
      simp [sectionPatches]
    -- no address of the code is cut
    have hbound : 4096 + layout.codeLength.toNat < 2 ^ 32 := by
      have hrdata := layout.rdataRVA.toNat_lt
      have haddresses := h.laid.addresses
      simp only [map_cons, map_nil, place, List.cons.injEq] at haddresses
      have hle := le_up (show 0 < 4096 by decide) code.length
      have hC := h.lengths.1
      omega
    have htext : peTextRVA.toNat = 4096 := rfl
    have hword : ∀ x : Int64, 0 ≤ x.toInt → x.toInt ≤ layout.codeLength.toNat →
        ((peTextRVA + x.toUInt64.toUInt32).toNat : Int) = peTextRVA.toNat + x.toInt := by
      intro x hx hle
      have hcut := toNat_cut hx (by omega)
      rw [UInt32.toNat_add, htext]
      omega
    have hmax : maxUint32.toNat = 2 ^ 32 - 1 := rfl
    have hrange := hrow.inside
    refine ⟨info, 12 * ordered.length + 12 * k, hrow.known, ?_, ?_, ?_, ?_, by omega⟩
    · rw [← hword f.begin hpos (by omega), hpointer,
        u32At_of_slice ((h.slice_section hsection (by dsimp only; omega)).trans hrow.begin)
          (UInt32.toNat_lt _)]
    · rw [← hword f.finish (by omega) hend, hpointer,
        u32At_of_slice ((h.slice_section hsection (by dsimp only; omega)).trans hrow.finish)
          (UInt32.toNat_lt _)]
    · rw [haddress, hpointer, ← Nat.add_assoc layout.pdataRVA.toNat,
        u32At_of_slice ((h.slice_section hsection (by dsimp only; omega)).trans hrow.address)
          (by omega)]
    · rw [hpointer, hinfo, h.slice_section hsection (by dsimp only; omega), hrow.unwind]

theorem unwind_directory :
    u32At image (optionalHeader + 112 + 8 * 3) = (sectionHeader image 3).virtualAddress ∧
      u32At image (optionalHeader + 112 + 8 * 3 + 4) = 12 * functions.length ∧
        pdata.length = 24 * functions.length := by
  obtain ⟨ordered, hperm, htable, hrows⟩ := peRuntimeFunctionData_spec h.unwound
  obtain ⟨-, -, haddress, -⟩ := h.section_headers
  rw [← hperm.length_eq, haddress, ← htable]
  refine ⟨u32At_header h.headers ?_, u32At_header h.headers ?_, hrows.length⟩ <;>
    simp [headerPatches]

end Built

end Built

/-! ## The layout of an image -/

/-- An image that has been made: its sections are in order, aligned, apart from each other and
inside of it, and no size or address of them was cut to 32 bits. What nothing else is written over
leads from the code to its target. If no function begins in front of the code, the table for
unwinding has one row for each of them, in the order of the code. -/
theorem image_layout (code rdata : List UInt8) (dataRefs : List MachineDataRef)
    (importRefs : List PeImportRef) (functions : List PeFunctionRange) (image : List UInt8)
    (h : buildDirectDynamicPE code rdata dataRefs importRefs functions = .ok image) :
    Exact [code.length, (filled rdata).length, 264, 24 * functions.length] image ∧
      WellLaid image ∧
      (∀ (k : Nat) ref, dataRefs[k]? = some ref → Kept dataRefs importRefs k ref.displacement →
        Resolves image ref.displacement ref.instructionEnd
          ((sectionHeader image 1).virtualAddress + ref.dataOffset.toInt)) ∧
      (∀ (k : Nat) ref, importRefs[k]? = some ref →
        Kept dataRefs importRefs (dataRefs.length + k) ref.displacement →
          ∃ address, Resolves image ref.displacement ref.instructionEnd address ∧
            ImportSlot image ref.importIndex.toNatClampNeg address) ∧
      u32At image (optionalHeader + 112 + 8 * 3) = (sectionHeader image 3).virtualAddress ∧
      u32At image (optionalHeader + 112 + 8 * 3 + 4) = 12 * functions.length ∧
      ((∀ f ∈ functions, 0 ≤ f.begin) →
        ∃ ordered : List PeFunctionRange, ordered.Perm functions ∧
          (ordered.Pairwise fun f g => f.finish ≤ g.begin) ∧
          (∀ f ∈ ordered, f.begin < f.finish ∧ f.finish.toInt ≤ code.length) ∧
          ∀ (k : Nat) f, ordered[k]? = some f → UnwindRow image k f) := by
  obtain ⟨layout, fileSize, dataPatches, importPatches, pdata, hbuilt⟩ := (exists_built h).2
  obtain ⟨haddress, htable, hlength⟩ := hbuilt.unwind_directory
  have hexact := hbuilt.exact
  rw [hlength] at hexact
  exact ⟨hexact, hexact.wellLaid, fun k ref => hbuilt.dataRef_resolves,
    fun k ref => hbuilt.importRef_resolves, haddress, htable, hbuilt.unwind_rows⟩

theorem exists_of_isSome {ε α : Type} {x : Except ε α} (h : x.toOption.isSome = true) :
    ∃ a, x = .ok a := by
  cases x with
  | error e => cases h
  | ok a => exact ⟨a, rfl⟩

/-- Two functions, a reference to data and one to an import. -/
theorem small_image : ∃ image,
    buildDirectDynamicPE (List.replicate 24 0) [0x68, 0x69] [⟨3, 7, 1⟩] [⟨9, 13, 1⟩]
      [⟨16, 24, 32⟩, ⟨0, 16, 64⟩] = .ok image ∧ Exact [24, 2, 264, 48] image ∧ WellLaid image := by
  obtain ⟨image, himage⟩ := exists_of_isSome (x := buildDirectDynamicPE (List.replicate 24 0)
    [0x68, 0x69] [⟨3, 7, 1⟩] [⟨9, 13, 1⟩] [⟨16, 24, 32⟩, ⟨0, 16, 64⟩]) (by decide +kernel)
  have hlayout := image_layout _ _ _ _ _ image himage
  exact ⟨image, himage, hlayout.1, hlayout.2.1⟩

/-! ## What is not promised -/

/-- Two references that are written over each other, and a function in front of the code. -/
theorem overlapping_refs :
    (∃ image ref, buildDirectDynamicPE (List.replicate 8 0) [] [⟨0, 4, 0⟩, ⟨2, 6, 0⟩] []
        [⟨0, 8, 16⟩] = .ok image ∧
      ref ∈ ([⟨0, 4, 0⟩, ⟨2, 6, 0⟩] : List MachineDataRef) ∧
      ¬Resolves image ref.displacement ref.instructionEnd
        ((sectionHeader image 1).virtualAddress + ref.dataOffset.toInt)) ∧
    ∃ image, buildDirectDynamicPE (List.replicate 8 0) [] [] [] [⟨-5000, 8, 16⟩] = .ok image ∧
      ¬UnwindRow image 0 ⟨-5000, 8, 16⟩ := by
  constructor
  · obtain ⟨image, himage⟩ := exists_of_isSome (x := buildDirectDynamicPE (List.replicate 8 0) []
      [⟨0, 4, 0⟩, ⟨2, 6, 0⟩] [] [⟨0, 8, 16⟩]) (by decide +kernel)
    refine ⟨image, ⟨0, 4, 0⟩, himage, mem_cons_self, ?_⟩
    obtain ⟨layout, fileSize, dataPatches, importPatches, pdata, hbuilt⟩ := (exists_built himage).2
    have haddresses := hbuilt.laid.addresses
    simp only [map_cons, map_nil, place, List.cons.injEq] at haddresses
    have haddress : layout.rdataRVA = 8192 := UInt32.toNat_inj.mp haddresses.2.1
    -- what is written for the two references
    have hdata := hbuilt.dataPatched
    have himport := hbuilt.importPatched
    rw [haddress] at hdata
    obtain rfl : [pePut32 0 4092, pePut32 2 4090] = dataPatches := Except.ok.inj hdata
    obtain rfl : [] = importPatches := Except.ok.inj himport
    have hcode := hbuilt.slice_section (p := ⟨peHeaderSize.toNat, _⟩) mem_cons_self
      (show 0 + 4 ≤ 8 by decide)
    have hword : u32At image (peHeaderSize.toNat + (0 : Int64).toNatClampNeg) = 0x0FFA0FFC := by
      rw [u32At]
      exact (congrArg Wire.ofLittleEndian hcode).trans (by decide)
    intro hresolves
    unfold Resolves i32At at hresolves
    rw [hword, hbuilt.section_headers.1, haddress] at hresolves
    cases hresolves
  · obtain ⟨image, himage⟩ := exists_of_isSome (x := buildDirectDynamicPE (List.replicate 8 0) [] []
      [] [⟨-5000, 8, 16⟩]) (by decide +kernel)
    refine ⟨image, himage, ?_⟩
    rintro ⟨info, start, -, hbegin, -⟩
    -- the address in front of the image is not a number of 32 bits
    have hnegative := hbegin.trans
      (show (peTextRVA.toNat : Int) + (-5000 : Int64).toInt = -904 from rfl)
    omega

end Kryndel.PE
