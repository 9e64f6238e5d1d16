import Kryndel.Package.Install
import Kryndel.Systems.Lines

/-!
# The manifest of a project

`kry.toml` is read line by line. A comment is cut off first, blank lines are skipped, and what
is in brackets names the section of the entries below it; quotes around a value are trimmed.
What has been read is checked at the end.
-/

namespace Kryndel

open Systems

/-- `LanguageVersion`. -/
def currentLanguageVersion : String := "1.0.0"

/-- `PackageManifest`, with all its fields. -/
structure ProjectManifest where
  name : String := ""
  version : String := ""
  kryndel : String := ""
  languageVersion : String := currentLanguageVersion
  dependencies : StringMap String := ∅
  targetDependencies : StringMap (StringMap String) := ∅

/-- What an installation uses of a manifest. -/
def ProjectManifest.forInstall (m : ProjectManifest) : PackageManifest where
  name := m.name
  kryndel := m.kryndel
  dependencies := m.dependencies
  targetDependencies := m.targetDependencies

/-- What is wrong with a manifest. -/
inductive ManifestError where
  | invalidLine (raw : List Char)
  | unknownPackageKey (key : String)
  | unknownSection (name : String)
  | invalidName
  | invalidVersion (version : String)
  | requirementMissing
  | invalidRequirement (requirement : String)
  | dependency (error : PackageError)
  | targetDependency (target : String) (error : PackageError)
  | invalidLanguageVersion (version : String)
  | unsupportedLanguageVersion (version : String)
  | invalidPackageName (name : String)

/-! ## Reading -/

/-- What is read: the section and the manifest so far. -/
structure ManifestReader where
  sectionName : List Char := []
  manifest : ProjectManifest := {}

/-- What the section of a target begins with. -/
@[irreducible] def targetStart : List Char := "target.".toList

/-- What the section of a target ends with. -/
@[irreducible] def targetEnd : List Char := ".dependencies".toList

/-- The target of a section `target.X.dependencies`. -/
def targetOfSection (name : List Char) : Option String :=
  if targetStart <+: name ∧ targetEnd <:+ name then
    some (String.ofList (trimSuffix targetEnd (trimPrefix targetStart name)))
  else none

/-- An entry of a section. -/
def setEntry (name : List Char) (m : ProjectManifest) (key value : String) :
    Except ManifestError ProjectManifest :=
  if name = "package".toList then
    if key = "name" then .ok { m with name := value }
    else if key = "version" then .ok { m with version := value }
    else if key = "kryndel" then .ok { m with kryndel := value }
    else if key = "language_version" then .ok { m with languageVersion := value }
    else .error (.unknownPackageKey key)
  else if name = "dependencies".toList then
    .ok { m with dependencies := m.dependencies.insert key value }
  else
    match targetOfSection name with
    | some target => .ok { m with
        targetDependencies := m.targetDependencies.insert target
          (((m.targetDependencies.lookup target).getD ∅).insert key value) }
    | none => .error (.unknownSection (String.ofList name))

def isBracket (c : Char) : Bool := c == '[' || c == ']'

def isQuote (c : Char) : Bool := c == '"'

/-- One line of a manifest. -/
def readManifestLine (st : ManifestReader) (raw : List Char) :
    Except ManifestError ManifestReader :=
  let line := trimSpace (raw.takeWhile (· ≠ '#'))
  if line = [] then .ok st
  else if line.head? = some '[' ∧ line.getLast? = some ']' then
    .ok { st with sectionName := trimOf isBracket line }
  else
    match line.dropWhile (· ≠ '=') with
    | [] => .error (.invalidLine raw)
    | _ :: rest => do
      let key := String.ofList (trimSpace (line.takeWhile (· ≠ '=')))
      let value := String.ofList (trimOf isQuote (trimSpace rest))
      let manifest ← setEntry st.sectionName st.manifest key value
      return { st with manifest }

/-- `validLanguageVersion`. -/
def ProjectManifest.validLanguage (version : String) : Bool :=
  match version.toList.splitOn '.' with
  | [major, minor, patch] => [major, minor, patch].all fun part =>
      !(part.isEmpty || (1 < part.length && part.head? == some '0')) &&
        (parseUint part).any fun n => n.toNat < 2 ^ 32
  | _ => false

/-- `checkLanguageVersion`. -/
def ProjectManifest.checkLanguage (version : String) : Except ManifestError Unit :=
  if !validLanguage version then .error (.invalidLanguageVersion version)
  else if version ≠ currentLanguageVersion then .error (.unsupportedLanguageVersion version)
  else .ok ()

/-- The checks at the end of `ParseManifest`. -/
def checkManifest (m : ProjectManifest) : Except ManifestError Unit := do
  if !validPackageName m.name then throw .invalidName
  if !validVersion m.version then throw (.invalidVersion m.version)
  if m.kryndel = "" then throw .requirementMissing
  if (parseVersionConstraint m.kryndel).isNone then throw (.invalidRequirement m.kryndel)
  (validateDependencyConstraints m.dependencies).mapError .dependency
  m.targetDependencies.entries.forM fun entry =>
    (validateDependencyConstraints entry.2).mapError (.targetDependency entry.1)
  ProjectManifest.checkLanguage m.languageVersion

/-- `ParseManifest`. -/
def parseManifest (data : List Char) : Except ManifestError ProjectManifest := do
  let st ← (readLines data).foldlM readManifestLine {}
  checkManifest st.manifest
  return st.manifest

/-! ## Writing -/

/-- `sortedKeys`. -/
def sortedKeys {β : Type} (m : StringMap β) : List String :=
  m.keys.insertionSort (· ≤ ·)

/-- The line of an entry. -/
def formatEntry (key value : String) : List Char :=
  key.toList ++ " = \"".toList ++ value.toList ++ "\"\n".toList

/-- The lines of some dependencies. -/
def formatDependencies (dependencies : StringMap String) : List Char :=
  (sortedKeys dependencies).flatMap fun key =>
    formatEntry key ((dependencies.lookup key).getD "")

/-- `FormatManifest`. -/
def formatManifest (m : ProjectManifest) : List Char :=
  let languageVersion :=
    if m.languageVersion = "" then currentLanguageVersion else m.languageVersion
  "[package]\n".toList ++ formatEntry "name" m.name ++ formatEntry "version" m.version ++
    formatEntry "kryndel" m.kryndel ++ formatEntry "language_version" languageVersion ++
    "\n[dependencies]\n".toList ++ formatDependencies m.dependencies ++
    (sortedKeys m.targetDependencies).flatMap fun target =>
      "\n[target.".toList ++ target.toList ++ ".dependencies]\n".toList ++
        formatDependencies ((m.targetDependencies.lookup target).getD ∅)

/-! ## Adding a dependency -/

/-- The version that `AddDependency` writes. -/
def dependencyVersion (version : String) : String :=
  if version = "" then "*" else version

/-- A manifest with one more dependency. -/
def ProjectManifest.withDependency (m : ProjectManifest) (name version : String) :
    ProjectManifest :=
  { m with dependencies := m.dependencies.insert name version }

/-- `AddDependency`, on the text of `kry.toml`: the text that is written. -/
def addDependency (text : List Char) (name version : String) :
    Except ManifestError (List Char) := do
  if !validPackageName name then throw (.invalidPackageName name)
  let m ← parseManifest text
  return formatManifest (m.withDependency name (dependencyVersion version))

end Kryndel
