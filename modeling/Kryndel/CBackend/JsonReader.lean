import Mathlib.Data.List.Sort
import Kryndel.Json.Grammar
import Kryndel.Values.Numeric

/-!
# The JSON parser of the C runtime

A parser by recursive descent. Whatever it refuses ends in `kfail`, which the parser catches, so
that a refusal here has no text. What `strtod` makes of a number with a fraction or an exponent is
a parameter. Limits on memory are left out.
-/

namespace Kryndel

open Json Quoting

/-- Values from JSON: integers of 64 bits, and other numbers by their tokens. -/
inductive JsonData where
  | null
  | bool (b : Bool)
  | int (i : Int64)
  | float (f : Float64)
  | number (token : List UInt8)
  | string (text : List UInt8)
  | array (items : List JsonData)
  | object (members : List (List UInt8 × JsonData))

/-! ## Strings -/

/-- A digit of `k_json_hex4`. -/
def kHexDigit (c : UInt8) : Option Nat :=
  if 48 ≤ c ∧ c ≤ 57 then some (c.toNat - 48)
  else if 97 ≤ c ∧ c ≤ 102 then some (c.toNat - 97 + 10)
  else if 65 ≤ c ∧ c ≤ 70 then some (c.toNat - 65 + 10)
  else none

/-- The loop of `k_json_hex4`, with so many digits to come. -/
def kJsonHex : Nat → Nat → List UInt8 → Option (Nat × List UInt8)
  | 0, value, s => some (value, s)
  | _ + 1, _, [] => none
  | n + 1, value, c :: s => (kHexDigit c).bind fun digit => kJsonHex n (value * 16 + digit) s

/-- `k_json_hex4`. -/
def kJsonHex4 (s : List UInt8) : Option (Nat × List UInt8) :=
  if s.length < 4 then none else kJsonHex 4 0 s

/-- `k_json_put_utf8`. -/
def kJsonPutUtf8 (cp : Nat) : List UInt8 :=
  if cp < 0x80 then [UInt8.ofNat cp]
  else if cp < 0x800 then [UInt8.ofNat (0xC0 ||| cp >>> 6), UInt8.ofNat (0x80 ||| cp &&& 0x3F)]
  else if cp < 0x10000 then
    [UInt8.ofNat (0xE0 ||| cp >>> 12), UInt8.ofNat (0x80 ||| cp >>> 6 &&& 0x3F),
      UInt8.ofNat (0x80 ||| cp &&& 0x3F)]
  else
    [UInt8.ofNat (0xF0 ||| cp >>> 18), UInt8.ofNat (0x80 ||| cp >>> 12 &&& 0x3F),
      UInt8.ofNat (0x80 ||| cp >>> 6 &&& 0x3F), UInt8.ofNat (0x80 ||| cp &&& 0x3F)]

/-- A byte that goes on with a character: `(b & 0xC0) == 0x80`. -/
def goesOn (b : UInt8) : Bool := b &&& 0xC0 == 0x80

/-- Two bytes, the second of which is tested. -/
def sequenceOf2 (second : UInt8 → Bool) : List UInt8 → Nat
  | b :: _ => if second b then 2 else 0
  | _ => 0

def sequenceOf3 (second : UInt8 → Bool) : List UInt8 → Nat
  | b :: c :: _ => if second b && goesOn c then 3 else 0
  | _ => 0

def sequenceOf4 (second : UInt8 → Bool) : List UInt8 → Nat
  | b :: c :: d :: _ => if second b && goesOn c && goesOn d then 4 else 0
  | _ => 0

/-- `k_json_utf8_sequence`: how many bytes the first character has; none, if there is none. -/
def kJsonUtf8Sequence : List UInt8 → Nat
  | [] => 0
  | a :: s =>
    if 0xC2 ≤ a ∧ a ≤ 0xDF then sequenceOf2 goesOn s
    else if a = 0xE0 then sequenceOf3 (fun b => 0xA0 ≤ b && b ≤ 0xBF) s
    else if (0xE1 ≤ a ∧ a ≤ 0xEC) ∨ (0xEE ≤ a ∧ a ≤ 0xEF) then sequenceOf3 goesOn s
    else if a = 0xED then sequenceOf3 (fun b => 0x80 ≤ b && b ≤ 0x9F) s
    else if a = 0xF0 then sequenceOf4 (fun b => 0x90 ≤ b && b ≤ 0xBF) s
    else if 0xF1 ≤ a ∧ a ≤ 0xF3 then sequenceOf4 goesOn s
    else if a = 0xF4 then sequenceOf4 (fun b => 0x80 ≤ b && b ≤ 0x8F) s
    else 0

/-- The escapes of `k_json_string` other than `u`. -/
def kJsonEscapeChar (e : UInt8) : Option UInt8 :=
  if e = 34 then some 34
  else if e = 92 then some 92
  else if e = 47 then some 47
  else if e = 98 then some 8
  else if e = 102 then some 12
  else if e = 110 then some 10
  else if e = 114 then some 13
  else if e = 116 then some 9
  else none

/-- The case `u` of `k_json_string`: a character, and what comes behind its escape. -/
def kJsonUnicode (s : List UInt8) : Option (Nat × List UInt8) := do
  let (cp, s) ← kJsonHex4 s
  if 0xD800 ≤ cp ∧ cp ≤ 0xDBFF then
    match s with
    | 92 :: 117 :: s' => do
      let (lo, s'') ← kJsonHex4 s'
      if 0xDC00 ≤ lo ∧ lo ≤ 0xDFFF then
        some (0x10000 + (cp - 0xD800) <<< 10 + (lo - 0xDC00), s'')
      else some (0xFFFD, s)
    | _ => some (0xFFFD, s)
  else if 0xDC00 ≤ cp ∧ cp ≤ 0xDFFF then some (0xFFFD, s)
  else some (cp, s)

/-- `k_json_string`, behind the first quote: the text, and what comes behind the last one. -/
def kJsonString : Nat → List UInt8 → Option (List UInt8 × List UInt8)
  | 0, _ => none
  | _ + 1, [] => none
  | n + 1, c :: s =>
    if c = 34 then some ([], s)
    else if c = 92 then
      match s with
      | [] => none
      | e :: s =>
        if e = 117 then do
          let (cp, s) ← kJsonUnicode s
          let (text, rest) ← kJsonString n s
          some (kJsonPutUtf8 cp ++ text, rest)
        else do
          let b ← kJsonEscapeChar e
          let (text, rest) ← kJsonString n s
          some (b :: text, rest)
    else if c < 0x20 then none
    else if c < 0x80 then do
      let (text, rest) ← kJsonString n s
      some (c :: text, rest)
    else if kJsonUtf8Sequence (c :: s) = 0 then do
      let (text, rest) ← kJsonString n s
      some (kJsonPutUtf8 0xFFFD ++ text, rest)
    else do
      let (text, rest) ← kJsonString n ((c :: s).drop (kJsonUtf8Sequence (c :: s)))
      some ((c :: s).take (kJsonUtf8Sequence (c :: s)) ++ text, rest)

/-! ## Numbers -/

/-- The part of `k_json_number` in front of the point. -/
def kJsonIntPart : List UInt8 → Option (List UInt8 × List UInt8)
  | [] => none
  | b :: s =>
    if b < 48 ∨ b > 57 then none
    else if b = 48 then some ([48], s)
    else some ((b :: s).takeWhile isDecimal, (b :: s).dropWhile isDecimal)

/-- Digits, of which there must be one. -/
def kJsonDigits : List UInt8 → Option (List UInt8 × List UInt8)
  | [] => none
  | b :: s =>
    if b < 48 ∨ b > 57 then none
    else some ((b :: s).takeWhile isDecimal, (b :: s).dropWhile isDecimal)

/-- The part of `k_json_number` from the point on. -/
def kJsonFracPart : List UInt8 → Option (List UInt8 × List UInt8)
  | 46 :: s => (kJsonDigits s).map fun (digits, rest) => (46 :: digits, rest)
  | s => some ([], s)

/-- An optional sign. -/
def kJsonSign : List UInt8 → List UInt8 × List UInt8
  | [] => ([], [])
  | b :: s => if b = 43 ∨ b = 45 then ([b], s) else ([], b :: s)

/-- The part of `k_json_number` from the exponent's letter on. -/
def kJsonExpPart : List UInt8 → Option (List UInt8 × List UInt8)
  | [] => some ([], [])
  | e :: s =>
    if e = 101 ∨ e = 69 then
      (kJsonDigits (kJsonSign s).2).map fun (digits, rest) =>
        (e :: (kJsonSign s).1 ++ digits, rest)
    else some ([], e :: s)

/-- What `k_json_number` reads: the token, whether it has a fraction or an exponent, and what
    comes behind it. -/
def kJsonNumberToken (s : List UInt8) : Option (List UInt8 × Bool × List UInt8) := do
  let minus := s.take (if s.head? = some 45 then 1 else 0)
  let s := s.drop (if s.head? = some 45 then 1 else 0)
  let (int, s) ← kJsonIntPart s
  let (frac, s) ← kJsonFracPart s
  let (exp, s) ← kJsonExpPart s
  some (minus ++ int ++ frac ++ exp, !frac.isEmpty || !exp.isEmpty, s)

/-- The integer of some digits. -/
def decimalNat (digits : List UInt8) : Nat :=
  digits.foldl (fun value b => value * 10 + (b.toNat - 48)) 0

/-- The integer of a token without a fraction or an exponent. -/
def decimalInt : List UInt8 → Int
  | 45 :: digits => -decimalNat digits
  | digits => decimalNat digits

/-- `strtoll` of such a token, and `strconv.ParseInt` with 64 bits: nothing out of range. -/
def parseInt64 (token : List UInt8) : Option Int64 :=
  let value := decimalInt token
  if -9223372036854775808 ≤ value ∧ value ≤ 9223372036854775807 then some (Int64.ofInt value)
  else none

/-- `k_json_number`'s value for a token. -/
def kJsonNumber (strtod : List UInt8 → Option Float64) (token : List UInt8) (isf : Bool) :
    JsonData :=
  if isf then ((strtod token).map .float).getD (.number token)
  else ((parseInt64 token).map .int).getD (.number token)

/-! ## Objects -/

/-- `memcmp` of strings of one length. -/
def memcmp : List UInt8 → List UInt8 → Ordering
  | a :: s, b :: t => (compare a.toNat b.toNat).then (memcmp s t)
  | _, _ => .eq

/-- A member, and how many came before it (`KJsonObjectEntry`). -/
abbrev KJsonObjectEntry := List UInt8 × JsonData × Nat

/-- `k_json_object_entry_compare`. -/
def kJsonObjectEntryCompare (a b : KJsonObjectEntry) : Ordering :=
  let n := min a.1.length b.1.length
  (memcmp (a.1.take n) (b.1.take n)).then
    ((compare a.1.length b.1.length).then (compare a.2.2 b.2.2))

/-- Members with their places from `n` on. -/
def withOrder : Nat → List (List UInt8 × JsonData) → List KJsonObjectEntry
  | _, [] => []
  | n, (key, value) :: members => (key, value, n) :: withOrder (n + 1) members

/-- The loop that keeps the last member of each key; `out` is what it has kept, the last one
    first. -/
def kUnique (out : List (List UInt8 × JsonData)) :
    List KJsonObjectEntry → List (List UInt8 × JsonData)
  | [] => out.reverse
  | (key, value, _) :: entries =>
    match out with
    | (last, kept) :: out' =>
      if last = key then kUnique ((last, value) :: out') entries
      else kUnique ((key, value) :: (last, kept) :: out') entries
    | [] => kUnique [(key, value)] entries

/-- The object of some members. -/
def kObject (members : List (List UInt8 × JsonData)) : JsonData :=
  .object (kUnique [] ((withOrder 0 members).insertionSort fun a b =>
    kJsonObjectEntryCompare a b ≠ .gt))

/-! ## Values -/

/-- `K_MAX_JSON_NESTING_DEPTH`. -/
def kMaxJsonNestingDepth : Nat := 256

/-- `k_json_ws`. -/
def kJsonWs (s : List UInt8) : List UInt8 := s.dropWhile isSpace

/-- A literal that must come. -/
def kJsonLiteral (literal : List UInt8) (node : JsonData) (s : List UInt8) :
    Option (JsonData × List UInt8) :=
  if literal.isPrefixOf s then some (node, s.drop literal.length) else none

section Values

variable (strtod : List UInt8 → Option Float64)

mutual

/-- `k_json_value`, inside of so many arrays and objects. -/
def kJsonValue : Nat → Nat → List UInt8 → Option (JsonData × List UInt8)
  | 0, _, _ => none
  | n + 1, depth, s =>
    match kJsonWs s with
    | [] => none
    | c :: s =>
      if c = 123 then
        if kMaxJsonNestingDepth ≤ depth then none
        else
          match kJsonWs s with
          | 125 :: rest => some (.object [], rest)
          | s => (kJsonMembers n (depth + 1) s).map fun (members, rest) => (kObject members, rest)
      else if c = 91 then
        if kMaxJsonNestingDepth ≤ depth then none
        else
          match kJsonWs s with
          | 93 :: rest => some (.array [], rest)
          | s => (kJsonItems n (depth + 1) s).map fun (items, rest) => (.array items, rest)
      else if c = 34 then
        (kJsonString (s.length + 1) s).map fun (text, rest) => (.string text, rest)
      else if c = 116 then kJsonLiteral trueText (.bool true) (c :: s)
      else if c = 102 then kJsonLiteral falseText (.bool false) (c :: s)
      else if c = 110 then kJsonLiteral nullText .null (c :: s)
      else
        (kJsonNumberToken (c :: s)).map fun (token, isf, rest) =>
          (kJsonNumber strtod token isf, rest)

/-- The loop of `k_json_value` over the items of an array. -/
def kJsonItems : Nat → Nat → List UInt8 → Option (List JsonData × List UInt8)
  | 0, _, _ => none
  | n + 1, depth, s =>
    (kJsonValue n depth s).bind fun (item, s) =>
      match kJsonWs s with
      | 44 :: s => (kJsonItems n depth s).map fun (items, rest) => (item :: items, rest)
      | 93 :: rest => some ([item], rest)
      | _ => none

/-- The loop of `k_json_value` over the members of an object. -/
def kJsonMembers : Nat → Nat → List UInt8 → Option (List (List UInt8 × JsonData) × List UInt8)
  | 0, _, _ => none
  | n + 1, depth, s =>
    match kJsonWs s with
    | 34 :: s =>
      (kJsonString (s.length + 1) s).bind fun (key, s) =>
        match kJsonWs s with
        | 58 :: s =>
          (kJsonValue n depth s).bind fun (value, s) =>
            match kJsonWs s with
            | 44 :: s =>
              (kJsonMembers n depth s).map fun (members, rest) => ((key, value) :: members, rest)
            | 125 :: rest => some ([(key, value)], rest)
            | _ => none
        | _ => none
    | _ => none

end

end Values

end Kryndel
