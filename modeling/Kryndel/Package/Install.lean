import Mathlib.Data.List.AList
import Mathlib.Data.List.Sort
import Kryndel.Package.Version
import Kryndel.Worklist.Exploration

/-!
# Installing packages

`PackageManager.Install` reads the manifest, takes the dependencies one by one in the order
of their names, chooses the newest version of each that meets the constraint noted for it,
and notes the constraints of the chosen version on packages for which there is none yet.

The registry, the archives and the file system are parameters (`World`): every package is
asked for once in an installation. What they say is checked as the program checks it.
-/

namespace Kryndel

/-- A Go map from strings. -/
abbrev StringMap (β : Type) := AList fun _ : String => β

/-! ## Packages -/

/-- `PackageManifest`, with what an installation uses of it. -/
structure PackageManifest where
  name : String
  kryndel : String
  dependencies : StringMap String := ∅
  targetDependencies : StringMap (StringMap String) := ∅
deriving Inhabited

/-- `RegistryVersion`. -/
structure RegistryVersion where
  version : String
  url : String := ""
  sha256 : String := ""
  dependencies : StringMap String := ∅
  targetDependencies : StringMap (StringMap String) := ∅
deriving Inhabited

/-- `RegistryIndex`. -/
structure RegistryIndex where
  name : String
  versions : List RegistryVersion := []
deriving Inhabited

/-- `LockedPackage`. -/
structure LockedPackage where
  name : String
  version : String
  url : String
  sha256 : String
  dependencies : StringMap String
deriving Inhabited

/-- `LockFile`. -/
structure LockFile where
  version : Nat := 1
  packages : List LockedPackage := []
deriving Inhabited

/-- How an installation fails. -/
inductive PackageError where
  /-- A failure outside of the program, with its text. -/
  | external (text : String)
  | invalidPackageName (name : String)
  | invalidDependencyName (name : String)
  | invalidConstraint (name constraint : String)
  | incompatibleCompiler (name requirement : String)
  | indexNameMismatch
  | invalidVersion (name version : String)
  | duplicateVersion (name version : String)
  | noVersion (name constraint : String)
  | lacksDigest (name version : String)
  | dependencyMismatch (name version : String)
deriving DecidableEq, Repr, Inhabited

/-- What is outside of the program. -/
structure World where
  os : String
  arch : String
  /-- Writes a requested package into the manifest (the file access in `AddDependency`). -/
  rewriteManifest : String → Except PackageError Unit
  /-- The index that the registry, or the cache, has for a package. -/
  fetchIndex : String → Except PackageError RegistryIndex
  /-- Downloads an archive, checks its digest and its contents, and yields its manifest and
      its digest (`download` up to `validatePackageArchive`). -/
  fetchArchive : String → RegistryVersion → Except PackageError (PackageManifest × String)
  /-- The URL that an archive is downloaded from. -/
  downloadURL : RegistryVersion → String
  /-- Unpacks the archive into the cache, and copies it into `vendor`. -/
  unpack : String → RegistryVersion → Except PackageError Unit
  writeLock : LockFile → Except PackageError Unit

/-- `validPackageName`. -/
def validPackageName (name : String) : Bool :=
  !name.isEmpty && name.utf8ByteSize ≤ 128 &&
    name.toList.all fun c => c == '-' || c == '_' || c.isAlphanum

/-- `validateDependencyConstraints`. -/
def validateDependencyConstraints (dependencies : StringMap String) : Except PackageError Unit :=
  dependencies.entries.forM fun entry => do
    if !validPackageName entry.1 then throw (.invalidDependencyName entry.1)
    if (parseVersionConstraint entry.2).isNone then throw (.invalidConstraint entry.1 entry.2)

/-- `ValidateCompilerRequirement`. -/
def validateCompilerRequirement (packageName requirement : String) :
    Except PackageError Unit := do
  if (parseVersionConstraint requirement).isNone then
    throw (.invalidConstraint packageName requirement)
  if !satisfies compilerVersion requirement then
    throw (.incompatibleCompiler packageName requirement)

/-- `sameStringMap`; a missing key reads as the empty string. -/
def sameStringMap (a b : StringMap String) : Bool :=
  a.entries.length == b.entries.length &&
    a.entries.all fun entry => (b.lookup entry.1).getD "" == entry.2

/-- `sameTargetDependencyMap`; a missing key reads as the empty map. -/
def sameTargetDependencyMap (a b : StringMap (StringMap String)) : Bool :=
  a.entries.length == b.entries.length &&
    a.entries.all fun entry => sameStringMap entry.2 ((b.lookup entry.1).getD ∅)

/-- `resolvedDependencies`: the dependencies for a target replace those for all targets. -/
def resolvedDependencies (base : StringMap String) (targeted : StringMap (StringMap String))
    (target : String) : StringMap String :=
  (targeted.lookup target).getD ∅ ∪ base

/-! ## Choosing a version -/

section Choice

variable (w : World)

/-- The checks of an index before it is sorted. -/
def checkVersions (name : String) (seenVersions : List String) :
    List RegistryVersion → Except PackageError Unit
  | [] => .ok ()
  | v :: versions => do
    if !validVersion v.version then throw (.invalidVersion name v.version)
    if v.version ∈ seenVersions then throw (.duplicateVersion name v.version)
    validateDependencyConstraints v.dependencies
    v.targetDependencies.entries.forM fun entry => validateDependencyConstraints entry.2
    checkVersions name (v.version :: seenVersions) versions

/-- `index`: the versions of a package, newest first. -/
def index (name : String) : Except PackageError (List RegistryVersion) := do
  if !validPackageName name then throw (.invalidPackageName name)
  let idx ← w.fetchIndex name
  if idx.name != name then throw .indexNameMismatch
  checkVersions name [] idx.versions
  return idx.versions.insertionSort fun a b => compareVersion a.version b.version ≠ .lt

/-- `resolve`. -/
def resolve (name constraint : String) : Except PackageError RegistryVersion := do
  if (parseVersionConstraint constraint).isNone then throw (.invalidConstraint name constraint)
  let versions ← index w name
  match versions.find? fun v => satisfies v.version constraint with
  | some v => return v
  | none => throw (.noVersion name constraint)

/-- `download`. -/
def download (name : String) (v : RegistryVersion) : Except PackageError LockedPackage := do
  if v.url == "" || v.sha256 == "" then throw (.lacksDigest name v.version)
  let (manifest, got) ← w.fetchArchive name v
  if !sameStringMap manifest.dependencies v.dependencies ||
      !sameTargetDependencyMap manifest.targetDependencies v.targetDependencies then
    throw (.dependencyMismatch name v.version)
  validateCompilerRequirement manifest.name manifest.kryndel
  return ⟨name, v.version, w.downloadURL v, got, v.dependencies⟩

end Choice

/-! ## Install -/

/-- What the loop of `Install` keeps: the constraint noted for each package, and the
    packages locked so far. -/
structure Progress where
  constraints : StringMap String
  packages : List LockedPackage := []

/-- The constraint of a dependency is noted unless there is one. -/
def noteConstraint (constraints : StringMap String) (dep constraint : String) :
    StringMap String :=
  if dep ∈ constraints then constraints else constraints.insert dep constraint

section Install

variable (w : World)

/-- The name of the target that is compiled for. -/
def installTarget : String :=
  if w.os == "windows" && w.arch == "amd64" then "windows-x64"
  else if w.os == "windows" && w.arch == "arm64" then "windows-arm64"
  else w.os ++ "-" ++ w.arch

/-- The locked package as it is written into the lock file. -/
def lockPackage (name : String) (v : RegistryVersion) : Except PackageError LockedPackage := do
  let lp ← download w name v
  w.unpack name v
  return { lp with
    dependencies := resolvedDependencies v.dependencies v.targetDependencies (installTarget w) }

/-- One round of the loop for a package that has not been seen. -/
def installPackage (seen : List String) (name : String) (st : Progress) :
    Except PackageError (List String × Progress) := do
  let v ← resolve w name ((st.constraints.lookup name).getD "")
  let lp ← lockPackage w name v
  let new := lp.dependencies.entries.filter fun entry => entry.1 ∉ seen
  let constraints := new.foldl (fun cs entry => noteConstraint cs entry.1 entry.2) st.constraints
  return (new.map Sigma.fst, ⟨constraints, st.packages ++ [lp]⟩)

/-- The loop of `Install`; the queue is sorted after each round. -/
def installs : Worklist.Exploration String Progress PackageError where
  visit := installPackage w
  arrange queue := queue.insertionSort (· ≤ ·)
  mem_arrange _ _ := List.mem_insertionSort _

/-- The dependencies of a manifest for the current target, with the requested packages. -/
def manifestDependencies (m : PackageManifest) (requested : List String) : StringMap String :=
  resolvedDependencies (requested.foldl (fun deps name => deps.insert name "*") m.dependencies)
    m.targetDependencies (installTarget w)

/-- What happens before the loop: the compiler is checked and the requested packages are
    written into the manifest. -/
def prepare (m : PackageManifest) (requested : List String) : Except PackageError Unit := do
  validateCompilerRequirement m.name m.kryndel
  requested.forM fun name => do
    if !validPackageName name then throw (.invalidPackageName name)
    w.rewriteManifest name

/-- The loop of `Install` before its first round. -/
def firstRound (m : PackageManifest) (requested : List String) :
    Worklist.Frontier String Progress :=
  let constraints := manifestDependencies w m requested
  Worklist.start (constraints.keys.insertionSort (· ≤ ·)) { constraints }

/-- `Install`, for at most some number of rounds, on the manifest that has been read. -/
def install (rounds : Nat) (m : PackageManifest) (requested : List String) :
    Option (Except PackageError LockFile) :=
  match prepare w m requested with
  | .error e => some (.error e)
  | .ok () =>
    (Worklist.run (installs w) rounds (firstRound w m requested)).map fun result => do
      let last ← result
      let lock : LockFile :=
        { packages := last.state.packages.insertionSort fun a b => a.name ≤ b.name }
      w.writeLock lock
      return lock

/-- A successful installation. -/
def Installed (m : PackageManifest) (requested : List String) (lock : LockFile) : Prop :=
  ∃ rounds, install w rounds m requested = some (.ok lock)

end Install

end Kryndel
