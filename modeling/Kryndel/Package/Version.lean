import Mathlib.Algebra.Ring.Nat
import Mathlib.Data.List.Basic

/-!
# Package versions

Three-part versions, and the constraints that a manifest or a registry puts on them.
-/

namespace Kryndel

/-- `unicode.IsSpace`. -/
def isSpaceRune (c : Char) : Bool :=
  [9, 10, 11, 12, 13, 32, 0x85, 0xA0, 0x1680, 0x2028, 0x2029, 0x202F, 0x205F, 0x3000].contains
    c.toNat || (0x2000 ≤ c.toNat && c.toNat ≤ 0x200A)

/-- `strings.TrimSpace`. -/
def trimSpace (text : List Char) : List Char :=
  ((text.dropWhile isSpaceRune).reverse.dropWhile isSpaceRune).reverse

/-- `semanticVersion`. -/
structure SemanticVersion where
  major : UInt64
  minor : UInt64
  patch : UInt64
deriving DecidableEq, Repr, Inhabited

/-- `strconv.ParseUint` for base 10 and 64 bits. -/
def parseUint (text : List Char) : Option UInt64 :=
  if text.isEmpty || !text.all Char.isDigit then none
  else
    let n := text.foldl (fun n c => 10 * n + (c.toNat - '0'.toNat)) 0
    if n < 2 ^ 64 then some (UInt64.ofNat n) else none

/-- A component of a version: no leading zeros. -/
def parseComponent (part : List Char) : Option UInt64 :=
  if part.isEmpty || (1 < part.length && part.head? == some '0') then none else parseUint part

/-- `parseSemanticVersion`. -/
def parseSemanticVersion (raw : String) : Option SemanticVersion :=
  let value := trimSpace raw.toList
  let value := if value.head? == some 'v' then value.tail else value
  match value.splitOn '.' with
  | [major, minor, patch] => do
    let major ← parseComponent major
    let minor ← parseComponent minor
    let patch ← parseComponent patch
    some ⟨major, minor, patch⟩
  | _ => none

/-- `validVersion`. -/
def validVersion (value : String) : Bool :=
  (parseSemanticVersion value).isSome

/-- `compareSemanticVersions`. -/
def compareSemanticVersions (a b : SemanticVersion) : Ordering :=
  (compare a.major b.major).then ((compare a.minor b.minor).then (compare a.patch b.patch))

/-- `compareVersion`, for versions that parse: versions of an index have been checked. -/
def compareVersion (a b : String) : Ordering :=
  match parseSemanticVersion a, parseSemanticVersion b with
  | some left, some right => compareSemanticVersions left right
  | _, _ => compare (String.ofList (trimSpace a.toList)) (String.ofList (trimSpace b.toList))

/-- The operator of a constraint. -/
inductive ConstraintOperator where
  | any | atLeast | caret | tilde | exact
deriving DecidableEq, Repr, Inhabited

/-- `versionConstraint`. -/
structure VersionConstraint where
  operator : ConstraintOperator
  version : SemanticVersion := default
deriving DecidableEq, Repr, Inhabited

/-- `parseVersionConstraint`. -/
def parseVersionConstraint (raw : String) : Option VersionConstraint :=
  let value := trimSpace raw.toList
  let parsed (operator : ConstraintOperator) (base : List Char) :=
    (parseSemanticVersion (String.ofList base)).map fun version =>
      (⟨operator, version⟩ : VersionConstraint)
  match value with
  | ['*'] => some { operator := .any }
  | '>' :: '=' :: base => parsed .atLeast (trimSpace base)
  | '^' :: base => parsed .caret (trimSpace base)
  | '~' :: base => parsed .tilde (trimSpace base)
  | base => parsed .exact base

/-- `satisfies`. -/
def satisfies (version constraint : String) : Bool :=
  match parseSemanticVersion version, parseVersionConstraint constraint with
  | some candidate, some requirement =>
    let base := requirement.version
    let atLeast := (compareSemanticVersions candidate base).isGE
    match requirement.operator with
    | .any => true
    | .atLeast => atLeast
    | .tilde => candidate.major == base.major && candidate.minor == base.minor && atLeast
    | .caret =>
      if base.major > 0 then candidate.major == base.major && atLeast
      else if base.minor > 0 then
        candidate.major == 0 && candidate.minor == base.minor && atLeast
      else candidate.major == 0 && candidate.minor == 0 && candidate.patch == base.patch
    | .exact => compareSemanticVersions candidate base == .eq
  | _, _ => false

/-- `CompilerVersion`. -/
def compilerVersion : String := "1.3.0"

example : satisfies compilerVersion "^1.2.0" = true := by decide

end Kryndel
