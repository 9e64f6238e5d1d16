import Mathlib.Data.List.Sort
import Kryndel.Wire.LittleEndian
import Kryndel.Wire.Patches

/-!
# Portable executables

The image of a program for Windows: the headers, the code, its data, the table of imports and the
table for unwinding the stack. Addresses in an image have 32 bits and are relative to its base;
sections are aligned one way in memory and another way in the file. Numbers are those of the
source, with their widths, and so is their arithmetic.

## References

- `machine_pe.go`
-/

namespace Kryndel.PE

open Patches

def peImageBase : UInt64 := 0x140000000
def peFileAlignment : UInt32 := 0x200
def peSectionAlignment : UInt32 := 0x1000
def peTextRVA : UInt32 := 0x1000
def peHeaderSize : UInt32 := 0x400
def peSubsystemConsole : UInt16 := 3

/-- `math.MaxUint32` -/
def maxUint32 : UInt64 := 0xFFFFFFFF

/-- `peAlign` -/
def peAlign (value alignment : UInt32) : UInt32 := (value + alignment - 1) &&& ~~~(alignment - 1)

/-- `peAlign64` -/
def peAlign64 (value alignment : UInt64) : UInt64 := (value + alignment - 1) &&& ~~~(alignment - 1)

/-! ## Bytes -/

/-- `pePut16` -/
def pePut16 (start : Nat) (value : UInt16) : Patch UInt8 := ⟨start, Wire.littleEndian 2 value.toNat⟩

/-- `pePut32` -/
def pePut32 (start : Nat) (value : UInt32) : Patch UInt8 := ⟨start, Wire.littleEndian 4 value.toNat⟩

/-- `pePut64` -/
def pePut64 (start : Nat) (value : UInt64) : Patch UInt8 := ⟨start, Wire.littleEndian 8 value.toNat⟩

/-- The bytes of an ASCII text. -/
def text (s : String) : List UInt8 := s.toList.map fun c => UInt8.ofNat c.toNat

/-- Zeros, until the length is a multiple of an alignment. -/
def pad (alignment : Nat) (data : List UInt8) : List UInt8 :=
  data ++ List.replicate ((alignment - data.length % alignment) % alignment) 0

/-! ## Imports -/

/-- The functions that an image imports. -/
def importNames : List String :=
  ["GetStdHandle", "WriteFile", "ExitProcess", "GetProcessHeap", "HeapAlloc", "GetTickCount64"]

/-- The loop of `peImportData`: the name of each function, and where the two tables point to it. -/
def importRows (idataRVA : UInt32) (ilt iatStart : Nat) :
    Nat → List String → List UInt8 × List UInt32 → List UInt8 × List UInt32
  | _, [], state => state
  | i, name :: names, (data, iat) =>
    let nameRVA := idataRVA + UInt32.ofNat data.length
    let data := puts data
      [pePut64 (ilt + 8 * i) nameRVA.toUInt64, pePut64 (iatStart + 8 * i) nameRVA.toUInt64]
    let iat := iat ++ [idataRVA + UInt32.ofNat iatStart + UInt32.ofNat (8 * i)]
    importRows idataRVA ilt iatStart (i + 1) names (pad 2 (data ++ [0, 0] ++ text name ++ [0]), iat)

/-- `peImportData`: the section of imports, and the addresses of their slots. -/
def peImportData (idataRVA : UInt32) : List UInt8 × List UInt32 :=
  let data := List.replicate 40 0
  let dllName := data.length
  let data := pad 8 (data ++ text "KERNEL32.dll" ++ [0])
  let ilt := data.length
  let data := data ++ List.replicate ((importNames.length + 1) * 8) 0
  let iatStart := data.length
  let data := data ++ List.replicate ((importNames.length + 1) * 8) 0
  let rows := importRows idataRVA ilt iatStart 0 importNames (data, [])
  (puts (pad 8 rows.1) [pePut32 0 (idataRVA + UInt32.ofNat ilt),
    pePut32 12 (idataRVA + UInt32.ofNat dllName),
    pePut32 16 (idataRVA + UInt32.ofNat iatStart)], rows.2)

/-! ## References -/

/-- A place in the code where the distance from an instruction to some data is missing. -/
structure MachineDataRef where
  displacement : Int64
  instructionEnd : Int64
  dataOffset : Int64
deriving DecidableEq, Repr

/-- The same for a slot of an import. -/
structure PeImportRef where
  displacement : Int64
  instructionEnd : Int64
  importIndex : Int64
deriving DecidableEq, Repr

/-- The distance that is written for a reference. The slice expression of the source panics if
its end wraps around. -/
def displacementPatch (codeLength displacement delta : Int64) (tooFar : String) :
    Except String (Patch UInt8) := do
  if delta < -0x80000000 ∨ delta > 0x7FFFFFFF then throw tooFar
  if displacement + 4 < displacement ∨ displacement + 4 > codeLength then
    throw "slice bounds out of range"
  return pePut32 displacement.toNatClampNeg delta.toUInt64.toUInt32

/-- The patch for a reference to data. -/
def dataPatch (codeLength rdataLength : Int64) (rdataRVA : UInt32) (ref : MachineDataRef) :
    Except String (Patch UInt8) := do
  if ref.displacement < 0 ∨ ref.displacement + 4 > codeLength ∨ ref.dataOffset < 0 ∨
      ref.dataOffset > rdataLength then
    throw "direct PE image has an invalid code-to-data reference"
  let delta := rdataRVA.toUInt64.toInt64 + ref.dataOffset - peTextRVA.toUInt64.toInt64 -
    ref.instructionEnd
  displacementPatch codeLength ref.displacement delta
    "direct PE data reference exceeds the x64 RIP-relative address range"

/-- The patch for a reference to an import. -/
def importPatch (codeLength : Int64) (iat : List UInt32) (ref : PeImportRef) :
    Except String (Patch UInt8) := do
  if ref.displacement < 0 ∨ ref.displacement + 4 > codeLength ∨ ref.importIndex < 0 ∨
      ref.importIndex ≥ Int64.ofNat iat.length then
    throw "direct PE image has an invalid import reference"
  let slot := iat.getD ref.importIndex.toNatClampNeg 0
  let delta := slot.toUInt64.toInt64 - peTextRVA.toUInt64.toInt64 - ref.instructionEnd
  displacementPatch codeLength ref.displacement delta
    "direct PE import reference exceeds the x64 RIP-relative address range"

/-! ## Unwinding -/

/-- A function in the code, and the size of its frame. -/
structure PeFunctionRange where
  begin : Int64
  finish : Int64
  frame : UInt32
deriving DecidableEq, Repr

/-- `peFrameUnwindInfo` -/
def peFrameUnwindInfo (frame : UInt32) : Except String (List UInt8) := do
  if frame = 0 ∨ frame % 16 ≠ 0 then
    throw s!"direct PE frame size {frame} is not 16-byte aligned"
  if frame > 128 ∧ frame / 8 > 0xFFFF then
    throw s!"direct PE frame size {frame} is too large for x64 unwind metadata"
  let allocation : List UInt8 :=
    if frame ≤ 128 then [11, (((frame - 8) / 8).toUInt8 <<< 4) ||| 2]
    else [11, 1, (frame / 8).toUInt8, ((frame / 8) >>> 8).toUInt8]
  let codes := allocation ++ [4, 3] ++ [1, 0x50]
  return pad 4 ([1, 11, UInt8.ofNat (codes.length / 2), 0x50] ++ codes)

/-- The loop of `peRuntimeFunctionData`. -/
def unwindRows (sectionRVA codeSize : UInt32) :
    Nat → UInt32 → List UInt8 → List PeFunctionRange → Except String (List UInt8)
  | _, _, data, [] => return data
  | index, previousEnd, data, function :: rest => do
    if function.begin ≥ function.finish ∨ function.finish > codeSize.toUInt64.toInt64 ∨
        (index > 0 ∧ function.begin < previousEnd.toUInt64.toInt64) then
      throw "direct PE image has overlapping or invalid unwind ranges"
    if peTextRVA.toUInt64 + function.finish.toUInt64 > maxUint32 then
      throw "direct PE function exceeds the 32-bit RVA range"
    let unwind ← peFrameUnwindInfo function.frame
    let data := pad 4 data
    let unwindRVA := sectionRVA.toUInt64 + UInt64.ofNat data.length
    if unwindRVA > maxUint32 then throw "direct PE unwind info exceeds the 32-bit RVA range"
    let start := index * 12
    let data := puts (data ++ unwind)
      [pePut32 start (peTextRVA + function.begin.toUInt64.toUInt32),
        pePut32 (start + 4) (peTextRVA + function.finish.toUInt64.toUInt32),
        pePut32 (start + 8) unwindRVA.toUInt32]
    unwindRows sectionRVA codeSize (index + 1) function.finish.toUInt64.toUInt32 data rest

/-- `peRuntimeFunctionData`: the section for unwinding, and the size of the table in it. -/
def peRuntimeFunctionData (functions : List PeFunctionRange) (sectionRVA codeSize : UInt32) :
    Except String (List UInt8 × UInt32) := do
  let ordered := functions.insertionSort fun f g => f.begin ≤ g.begin
  if ordered.length * 12 > maxUint32.toNat then
    throw "direct PE image has too many unwind ranges"
  let tableSize := ordered.length * 12
  let data ← unwindRows sectionRVA codeSize 0 0 (List.replicate tableSize 0) ordered
  return (data, UInt32.ofNat tableSize)

/-! ## The image -/

/-- `peSection`: the header of a section. -/
def peSection (start : Nat) (name : String) (rva length raw flags : UInt32) :
    List (Patch UInt8) :=
  [⟨start, (text name).take 8⟩, pePut32 (start + 8) length, pePut32 (start + 12) rva,
    pePut32 (start + 16) (peAlign length peFileAlignment), pePut32 (start + 20) raw,
    pePut32 (start + 36) flags]

/-- Sizes and addresses of an image, as its headers have them. -/
structure Layout where
  codeLength : UInt32
  rdataLength : UInt32
  idataLength : UInt32
  pdataLength : UInt32
  rdataRVA : UInt32
  idataRVA : UInt32
  pdataRVA : UInt32
  rdataRaw : UInt32
  idataRaw : UInt32
  pdataRaw : UInt32
  imageSize : UInt32
  tableSize : UInt32

/-- Where the optional header begins. -/
def optionalHeader : Nat := 0x84 + 20

/-- Where the headers of the sections begin. -/
def sectionHeaders : Nat := optionalHeader + 0xf0

/-- The headers of an image. -/
def headerPatches (layout : Layout) (iat : List UInt32) : List (Patch UInt8) :=
  let coff := 0x84
  let opt := optionalHeader
  let sections := sectionHeaders
  [⟨0, text "MZ"⟩,
    pePut32 0x3c 0x80,
    ⟨0x80, text "PE" ++ [0, 0]⟩,
    pePut16 coff 0x8664,
    pePut16 (coff + 2) 4,
    pePut16 (coff + 16) 0xf0,
    pePut16 (coff + 18) 0x0022,
    pePut16 opt 0x20b,
    pePut32 (opt + 4) (peAlign layout.codeLength peFileAlignment),
    pePut32 (opt + 8) (peAlign layout.rdataLength peFileAlignment +
      peAlign layout.idataLength peFileAlignment + peAlign layout.pdataLength peFileAlignment),
    pePut32 (opt + 16) peTextRVA,
    pePut32 (opt + 20) peTextRVA,
    pePut64 (opt + 24) peImageBase,
    pePut32 (opt + 32) peSectionAlignment,
    pePut32 (opt + 36) peFileAlignment,
    pePut16 (opt + 40) 6,
    pePut16 (opt + 48) 6,
    pePut32 (opt + 56) layout.imageSize,
    pePut32 (opt + 60) peHeaderSize,
    pePut16 (opt + 68) peSubsystemConsole,
    pePut16 (opt + 70) 0x100,
    pePut64 (opt + 72) 0x100000,
    pePut64 (opt + 80) 0x1000,
    pePut64 (opt + 88) 0x100000,
    pePut64 (opt + 96) 0x1000,
    pePut32 (opt + 108) 16,
    pePut32 (opt + 112 + 8) layout.idataRVA,
    pePut32 (opt + 112 + 12) 40,
    pePut32 (opt + 112 + 8 * 3) layout.pdataRVA,
    pePut32 (opt + 112 + 8 * 3 + 4) layout.tableSize,
    pePut32 (opt + 112 + 8 * 12) (iat.getD 0 0),
    pePut32 (opt + 112 + 8 * 12 + 4) (UInt32.ofNat ((iat.length + 1) * 8))] ++
  peSection sections ".text" peTextRVA layout.codeLength peHeaderSize 0x60000020 ++
  peSection (sections + 40) ".rdata" layout.rdataRVA layout.rdataLength layout.rdataRaw
    0x40000040 ++
  peSection (sections + 80) ".idata" layout.idataRVA layout.idataLength layout.idataRaw
    0xc0000040 ++
  peSection (sections + 120) ".pdata" layout.pdataRVA layout.pdataLength layout.pdataRaw
    0x40000040

/-- The bytes of an image: the sections first, then the headers. -/
def writeImage (code rdata idata pdata : List UInt8) (iat : List UInt32) (layout : Layout)
    (fileSize : Nat) : List UInt8 :=
  puts (List.replicate fileSize 0)
    ([⟨peHeaderSize.toNat, code⟩, ⟨layout.rdataRaw.toNat, rdata⟩,
      ⟨layout.idataRaw.toNat, idata⟩, ⟨layout.pdataRaw.toNat, pdata⟩] ++
        headerPatches layout iat)

/-- The data of an image; it is not empty. -/
def filled (rdata : List UInt8) : List UInt8 := if rdata.length = 0 then [0] else rdata

/-- The address behind a section. -/
def nextRVA (base : UInt64) (length : Nat) : UInt64 :=
  base + peAlign64 (UInt64.ofNat length) peSectionAlignment.toUInt64

/-- The place in the file behind a section. -/
def nextRaw (base : UInt64) (length : Nat) : UInt64 :=
  base + (peAlign (UInt32.ofNat length) peFileAlignment).toUInt64

/-- `buildDirectDynamicPE` -/
def buildDirectDynamicPE (code rdata : List UInt8) (dataRefs : List MachineDataRef)
    (importRefs : List PeImportRef) (functions : List PeFunctionRange) :
    Except String (List UInt8) := do
  if code.length = 0 ∨ code.length > maxUint32.toNat ∨ rdata.length > maxUint32.toNat then
    throw "direct PE image has an invalid code or data size"
  if functions.length = 0 then throw "direct PE image has no unwindable entrypoint"
  let rdata := filled rdata
  let rdataRVA64 := nextRVA peTextRVA.toUInt64 code.length
  if rdataRVA64 > maxUint32 then throw "direct PE code section exceeds the 32-bit RVA range"
  let rdataRVA := rdataRVA64.toUInt32
  let idataRVA64 := nextRVA rdataRVA64 rdata.length
  if idataRVA64 > maxUint32 then throw "direct PE import section exceeds the 32-bit RVA range"
  let idataRVA := idataRVA64.toUInt32
  let idata := (peImportData idataRVA).1
  let iat := (peImportData idataRVA).2
  let codeLength := Int64.ofNat code.length
  let dataPatches ← dataRefs.mapM (dataPatch codeLength (Int64.ofNat rdata.length) rdataRVA)
  let importPatches ← importRefs.mapM (importPatch codeLength iat)
  let code := puts code (dataPatches ++ importPatches)
  let pdataRVA64 := nextRVA idataRVA64 idata.length
  if pdataRVA64 > maxUint32 then throw "direct PE unwind section exceeds the 32-bit RVA range"
  let pdataRVA := pdataRVA64.toUInt32
  let unwind ← peRuntimeFunctionData functions pdataRVA (UInt32.ofNat code.length)
  let pdata := unwind.1
  let textRaw := peHeaderSize
  let rdataRaw64 := nextRaw textRaw.toUInt64 code.length
  let idataRaw64 := nextRaw rdataRaw64 rdata.length
  let pdataRaw64 := nextRaw idataRaw64 idata.length
  let fileSize64 := nextRaw pdataRaw64 pdata.length
  let imageEndRVA64 := pdataRVA.toUInt64 + UInt64.ofNat pdata.length
  if imageEndRVA64 > maxUint32 then throw "direct PE image size exceeds the 32-bit RVA range"
  let imageSize64 := peAlign64 imageEndRVA64 peSectionAlignment.toUInt64
  if fileSize64 > maxUint32 ∨ imageSize64 > maxUint32 ∨ fileSize64 > 0x7FFFFFFFFFFFFFFF then
    throw "direct PE image exceeds the supported file or image size"
  let layout : Layout :=
    { codeLength := UInt32.ofNat code.length
      rdataLength := UInt32.ofNat rdata.length
      idataLength := UInt32.ofNat idata.length
      pdataLength := UInt32.ofNat pdata.length
      rdataRVA
      idataRVA
      pdataRVA
      rdataRaw := rdataRaw64.toUInt32
      idataRaw := idataRaw64.toUInt32
      pdataRaw := pdataRaw64.toUInt32
      imageSize := imageSize64.toUInt32
      tableSize := unwind.2 }
  return writeImage code rdata idata pdata iat layout fileSize64.toNat

end Kryndel.PE
