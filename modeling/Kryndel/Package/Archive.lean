import Mathlib.Data.List.Sort
import Kryndel.Files.Inner
import Kryndel.Files.Sandbox
import Kryndel.Package.Manifest

/-!
# Package archives

A package is a compressed `tar` archive. It is validated before it is unpacked, entry by entry,
and the same checks are made again when it is unpacked. `gzip` and `tar` are outside of the
model: an archive is what they make of its bytes.
-/

namespace Kryndel

def maxPackageArchiveBytes : Nat := 64 * 2 ^ 20

def maxPackageArchiveExpandedBytes : Nat := 512 * 2 ^ 20

def maxPackageArchiveEntries : Nat := 10000

def maxPackageEntryBytes : Nat := 64 * 2 ^ 20

/-- `tar.TypeReg`. -/
def typeReg : UInt8 := 48

/-- `tar.Header`, with what can be read of the entry. -/
structure TarEntry where
  name : Bytes
  typeflag : UInt8
  size : Int
  content : Bytes
deriving DecidableEq

/-- The bytes of an archive, as `gzip` and `tar` read them. -/
structure PackageData where
  length : Nat
  entries : List TarEntry
  /-- The reader fails behind these entries. -/
  broken : Bool := false
  /-- The bytes that the archive expands to. -/
  expanded : Nat

/-- What is wrong with an archive. -/
inductive ArchiveError where
  | tooLarge
  | broken
  | tooManyEntries
  | notRegular (name : Bytes)
  | unsafePath (name : Bytes)
  | pathTraversal (name : Bytes)
  | duplicateEntry (name : Path)
  | entryTooLarge (name : Path)
  | truncatedEntry (name : Path)
  | escapesDestination
  | expandsTooFar
  | manifestMissing
  | mainMissing
  | manifest (error : ManifestError)
  | otherCoordinates (name version : String)
  | file (error : FileError)

def backslashByte : UInt8 := 92

/-- `safeArchivePath`. -/
def safeArchivePath (name : Bytes) : Except ArchiveError Path :=
  let name := name.map fun b => if b = backslashByte then slash else b
  if name = [] || isAbs name || name.contains 0 then .error (.unsafePath name)
  else
    let cleaned := clean name
    -- `.`, `..` and what begins with `../`
    if cleaned.parts = [] ∨ cleaned.parts.head? = some .up then .error (.pathTraversal name)
    else .ok cleaned

/-- The checks of an entry, by number, that are made when it is validated and when it is
    unpacked. -/
def checkEntry (number : Nat) (seen : List Path) (e : TarEntry) : Except ArchiveError Path :=
  if maxPackageArchiveEntries < number then .error .tooManyEntries
  else if e.typeflag ≠ typeReg then .error (.notRegular e.name)
  else
    match safeArchivePath e.name with
    | .error error => .error error
    | .ok name =>
      if name ∈ seen then .error (.duplicateEntry name)
      else if e.size < 0 ∨ e.size > maxPackageEntryBytes then .error (.entryTooLarge name)
      else .ok name

/-! ## Validation -/

/-- What the loop of `validatePackageArchive` has found. -/
structure Inspected where
  manifest : Bytes := []
  mainFound : Bool := false

/-- `validatePackageArchive` looks for two names. -/
def Inspected.note (found : Inspected) (name : Path) (content : Bytes) : Inspected where
  manifest := if name.text = ascii "kry.toml" then content else found.manifest
  mainFound := if name.text = ascii "main.kry" then true else found.mainFound

/-- The loop of `validatePackageArchive`. -/
def inspectEntries : Nat → List Path → Inspected → List TarEntry → Except ArchiveError Inspected
  | _, _, found, [] => .ok found
  | count, seen, found, e :: rest =>
    match checkEntry (count + 1) seen e with
    | .error error => .error error
    | .ok name =>
      let content := e.content.take (e.size + 1).toNat
      if content.length ≠ e.size then .error (.truncatedEntry name)
      else inspectEntries (count + 1) (name :: seen) (found.note name content) rest

/-- `validatePackageArchive`; `text` reads bytes as characters. -/
def validatePackageArchive (text : Bytes → List Char) (data : PackageData)
    (expectedName expectedVersion : String) : Except ArchiveError ProjectManifest := do
  if data.length > maxPackageArchiveBytes then throw .tooLarge
  let found ← inspectEntries 0 [] {} data.entries
  if data.broken then throw .broken
  if data.expanded > maxPackageArchiveExpandedBytes then throw .expandsTooFar
  if found.manifest = [] then throw .manifestMissing
  if !found.mainFound then throw .mainMissing
  let m ← (parseManifest (text found.manifest)).mapError .manifest
  if m.name ≠ expectedName || m.version ≠ expectedVersion then
    throw (.otherCoordinates m.name m.version)
  return m

/-! ## Unpacking -/

section Unpacking

variable (host : Host)

/-- The file of an entry is created and written. -/
def extractEntry (target : Path) (e : TarEntry) : Os Unit := do
  mkdirAll host target.dir
  create host target (.file [])
  writeFile host target (e.content.take e.size.toNat)

/-- The loop of `extractPackage`. -/
def extractEntries (dest : Bytes) :
    Nat → List Path → List TarEntry → Os (Except ArchiveError Unit)
  | _, _, [] => pure (.ok ())
  | count, seen, e :: rest =>
    match checkEntry (count + 1) seen e with
    | .error error => pure (.error error)
    | .ok name =>
      let target := join dest name.text
      if !within host (clean dest) target then pure (.error .escapesDestination)
      else do
        match ← (extractEntry host target e).attempt with
        | .error error => pure (.error (.file error))
        | .ok () =>
          if e.content.length < e.size then pure (.error (.truncatedEntry name))
          else extractEntries dest (count + 1) (name :: seen) rest

/-- `extractPackage`. -/
def extractPackage (data : PackageData) (dest : Bytes) : Os (Except ArchiveError Unit) :=
  if data.length > maxPackageArchiveBytes then pure (.error .tooLarge)
  else do
    match ← extractEntries host dest 0 [] data.entries with
    | .error error => pure (.error error)
    | .ok () =>
      if data.broken then pure (.error .broken)
      else if data.expanded > maxPackageArchiveExpandedBytes then pure (.error .expandsTooFar)
      else pure (.ok ())

end Unpacking

/-! ## Packing -/

/-- Something that is not a directory, as `filepath.WalkDir` comes upon it. -/
structure WalkedFile where
  place : Location
  regular : Bool := true
  content : Bytes

/-- The path of a file from the project's directory. -/
def WalkedFile.rel (f : WalkedFile) : Path :=
  .inner f.place

/-- What `filepath.WalkDir` comes upon in the directory of a project. -/
structure ProjectFiles where
  files : List WalkedFile
  /-- Nothing is found twice. -/
  distinct : (files.map WalkedFile.place).Nodup
  below : ∀ f ∈ files, f.place ≠ []

/-- A file that is left out. -/
def WalkedFile.skipped (f : WalkedFile) : Bool :=
  f.rel.text = ascii "kry.lock" || f.place.getLast?.map FileName.text = some (ascii ".DS_Store")

/-- The walk of `PackageArchive`, with the files so far. -/
def collectFiles : List WalkedFile → List WalkedFile → Except ArchiveError (List WalkedFile)
  | found, [] => .ok found
  | found, f :: rest =>
    if !f.regular then .error (.notRegular f.rel.text)
    else if f.skipped then collectFiles found rest
    else if found.length = maxPackageArchiveEntries then .error .tooManyEntries
    else collectFiles (found ++ [f]) rest

/-- The entry of a file. -/
def archiveEntry (f : WalkedFile) : Except ArchiveError TarEntry := do
  let name ← safeArchivePath f.rel.text
  if f.content.length > maxPackageEntryBytes then throw (.entryTooLarge name)
  return ⟨name.text, typeReg, f.content.length, f.content⟩

/-- `PackageArchive`: the entries that are written. -/
def packageArchive (project : ProjectFiles) : Except ArchiveError (List TarEntry) := do
  let files ← collectFiles [] project.files
  (files.insertionSort fun a b => a.rel.text ≤ b.rel.text).mapM archiveEntry

end Kryndel
