import Kryndel.Files.Path
import Kryndel.Wire.Quoting

/-!
# Files of variables

Each line of a `.env` file that is not empty or a comment gives a variable a value, which can be
put in quotes and can refer to variables that have been given values before.
-/

namespace Kryndel

namespace Dotenv

/-- Why a value is refused. -/
inductive ValueError where
  | unterminatedSingle
  | textAfterSingle
  | unterminatedDouble
  | textAfterDouble
  | invalidDouble
deriving DecidableEq

/-- Why a line is refused. -/
inductive LineError where
  | expectedBinding
  | invalidName (name : Bytes)
  | value (error : ValueError)
deriving DecidableEq

/-- The single and the double quote. -/
def singleQuote : UInt8 := 39

def doubleQuote : UInt8 := 34

/-- `#`. -/
def hash : UInt8 := 35

/-! ## Values -/

/-- `strings.LastIndexByte`. -/
def lastIndexByte (b : UInt8) : Bytes → Option Nat
  | [] => none
  | a :: rest =>
    match lastIndexByte b rest with
    | some i => some (i + 1)
    | none => if a = b then some 0 else none

/-- `strings.Index`. -/
def index (pattern : Bytes) : Bytes → Option Nat
  | [] => if pattern = [] then some 0 else none
  | a :: rest =>
    if pattern.isPrefixOf (a :: rest) then some 0 else (index pattern rest).map (· + 1)

/-- Is this nothing, or a comment, apart from white space? -/
def isComment (suffix : Bytes) : Bool :=
  let suffix := Quoting.trimSpace suffix
  suffix = [] || suffix.head? = some hash

/-- `dotenvValue`. -/
def dotenvValue : Bytes → Except ValueError Bytes
  | [] => .ok []
  | first :: rest =>
    if first = singleQuote then
      match lastIndexByte singleQuote rest with
      | none => .error .unterminatedSingle
      | some i =>
        if isComment (rest.drop (i + 1)) then .ok (rest.take i) else .error .textAfterSingle
    else if first = doubleQuote then
      match lastIndexByte doubleQuote rest with
      | none => .error .unterminatedDouble
      | some i =>
        if isComment (rest.drop (i + 1)) then
          match Quoting.unquote (first :: rest.take (i + 1)) with
          | none => .error .invalidDouble
          | some decoded => .ok decoded
        else .error .textAfterDouble
    else
      match index (ascii " #") (first :: rest) with
      | some i => .ok (Quoting.trimSpace ((first :: rest).take i))
      | none => .ok (first :: rest)

/-! ## Variables in values -/

def isDigit (b : UInt8) : Bool := 48 ≤ b && b ≤ 57

def isLetter (b : UInt8) : Bool := (65 ≤ b && b ≤ 90) || (97 ≤ b && b ≤ 122) || b = 95

/-- `isAlphaNum` of `os`. -/
def isAlphaNum (b : UInt8) : Bool := isDigit b || isLetter b

/-- `isShellSpecialVar` of `os`. -/
def isShellSpecialVar (b : UInt8) : Bool := (ascii "*#$@!?-").contains b || isDigit b

/-- `getShellName` of `os`: the name at the front of what follows a `$`, and how many bytes
    belong to it. -/
def getShellName : Bytes → Bytes × Nat
  | [] => ([], 0)
  | first :: rest =>
    if first = 123 then
      -- a special variable between braces is found like any other name
      let name := rest.takeWhile (· ≠ 125)
      if name.length = rest.length then ([], 1) else (name, name.length + 2)
    else if isShellSpecialVar first then ([first], 1)
    else
      let name := (first :: rest).takeWhile isAlphaNum
      (name, name.length)

/-- The loop of `os.Expand`. -/
def expandFrom (mapping : Bytes → Bytes) : Nat → Bytes → Bytes
  | 0, _ => []
  | _ + 1, [] => []
  | n + 1, a :: rest =>
    if a = 36 ∧ rest ≠ [] then
      let (name, size) := getShellName rest
      let value := if name ≠ [] then mapping name else if size = 0 then [a] else []
      value ++ expandFrom mapping n (rest.drop size)
    else a :: expandFrom mapping n rest

/-- `os.Expand`. -/
def expand (mapping : Bytes → Bytes) (s : Bytes) : Bytes :=
  expandFrom mapping s.length s

/-! ## Lines -/

/-- Variables that have values. -/
abbrev Values := List (Bytes × Bytes)

/-- What a name in a value stands for: a variable of the file, or one of the host. -/
def reference (getenv : Bytes → Bytes) (values : Values) (name : Bytes) : Bytes :=
  (values.lookup name).getD (getenv name)

/-- The regular expression for names. -/
def isName : Bytes → Bool
  | [] => false
  | first :: rest => isLetter first && rest.all isAlphaNum

/-- `strings.IndexByte`. -/
def indexByte (b : UInt8) (s : Bytes) : Option Nat := index [b] s

def setValue (values : Values) (key value : Bytes) : Values :=
  (key, value) :: values.filter (·.1 ≠ key)

/-- The body of the loop of `dotenvParse`. -/
def dotenvLine (getenv : Bytes → Bytes) (values : Values) (raw : Bytes) :
    Except LineError Values :=
  let line := Quoting.trimSpace raw
  if line = [] || line.head? = some hash then .ok values
  else
    let line :=
      if (ascii "export ").isPrefixOf line then Quoting.trimSpace (line.drop 7) else line
    match indexByte 61 line with
    | none => .error .expectedBinding
    | some 0 => .error .expectedBinding
    | some eq =>
      let key := Quoting.trimSpace (line.take eq)
      if !isName key then .error (.invalidName key)
      else
        match dotenvValue (Quoting.trimSpace (line.drop (eq + 1))) with
        | .error e => .error (.value e)
        | .ok value => .ok (setValue values key (expand (reference getenv values) value))

/-- Line ends of two characters become line ends of one. -/
def replaceLineEnds : Bytes → Bytes
  | 13 :: 10 :: rest => 10 :: replaceLineEnds rest
  | b :: rest => b :: replaceLineEnds rest
  | [] => []

/-- The loop of `dotenvParse`, behind `n` lines. -/
def dotenvLines (getenv : Bytes → Bytes) : Nat → Values → List Bytes →
    Except (Nat × LineError) Values
  | _, values, [] => .ok values
  | n, values, raw :: rest =>
    match dotenvLine getenv values raw with
    | .error e => .error (n + 1, e)
    | .ok values => dotenvLines getenv (n + 1) values rest

/-- `dotenvParse`: the values of the variables, or the number of a line and what is wrong about
    it. -/
def dotenvParse (getenv : Bytes → Bytes) (data : Bytes) : Except (Nat × LineError) Values :=
  dotenvLines getenv 0 [] ((replaceLineEnds data).splitOn 10)

example : dotenvParse (fun _ => [])
    (ascii "export NAME=Kryndel\nGREETING=hello $\x7bNAME\x7d\nQUOTED=\"a b\" # comment\n") =
      .ok [(ascii "QUOTED", ascii "a b"), (ascii "GREETING", ascii "hello Kryndel"),
        (ascii "NAME", ascii "Kryndel")] := by
  decide +kernel

end Dotenv

end Kryndel
