import Kryndel.Values.Equality
import Kryndel.Persistent.Versions
import Mathlib.Order.Lattice

/-!
# Values as the evaluators hold them

An array of the evaluators is a flat slice or a persistent array, and a JSON value has its text
or a decoded node, of which the text is made when it is needed. Elements of arrays can be arrays
in their turn, of either form. Equality reads the elements through the memory; what it answers
depends only on the values that are denoted.
-/

namespace Kryndel

open List

/-- How `json.Marshal` prints a decoded node, if it can. -/
class JsonNode (J : Type) where
  marshal : J → Option String

/-- A value of the evaluators. The arrays are in a memory of such values. -/
inductive RunValue (J : Type) where
  | nil
  | int (i : Int64)
  | uint (bits : UInt8) (u : UInt64)
  | float (f : Float64)
  | bool (b : Bool)
  | string (s : String)
  | bytes (bs : List UInt8)
  | array (a : ArrayValue)
  | struct (decl : String) (type : Ty) (fields : List (RunValue J))
  | enum (decl variant : String)
  | absent
  | present (inner : RunValue J)
  | result (ok : Bool) (inner : RunValue J)
  | map (entries : List (RunValue J × RunValue J))
  | set (items : List (RunValue J))
  | json (s : String) (node : Option J)
  | handle (kind : HandleKind) (id : Nat)
  | function (id : Nat)

/-- `jsonText` -/
def jsonText {J : Type} [JsonNode J] (s : String) (node : Option J) : String :=
  match node with
  | none => s
  | some node => if s ≠ "" then s else (JsonNode.marshal node).getD "null"

section Equality

variable {J : Type} [JsonNode J] [FloatArith]

/-- The loop over two sequences of the same length. -/
def equalPairs (equal : RunValue J → RunValue J → Option Bool) :
    List (RunValue J × RunValue J) → Option Bool
  | [] => some true
  | (a, b) :: rest => do
    if ← equal a b then equalPairs equal rest else some false

/-- The loop over the entries of two maps. -/
def equalEntries (equal : RunValue J → RunValue J → Option Bool) :
    List ((RunValue J × RunValue J) × (RunValue J × RunValue J)) → Option Bool
  | [] => some true
  | (a, b) :: rest => do
    if !(← equal a.1 b.1) then some false
    else if ← equal a.2 b.2 then equalEntries equal rest else some false

/-- The loop over the elements of two arrays, from an index on. -/
def equalElements (m : Memory (RunValue J)) (equal : RunValue J → RunValue J → Option Bool)
    (a b : ArrayValue) : Nat → Nat → Option Bool
  | 0, _ => some true
  | left + 1, index => do
    if ← equal (← arrayAt m a index) (← arrayAt m b index) then
      equalElements m equal a b left (index + 1)
    else some false

/-- `equalValue`, to a depth. Out of bounds and out of depth it has no result. -/
def equalRun (m : Memory (RunValue J)) : Nat → RunValue J → RunValue J → Option Bool
  | 0, _, _ => none
  | depth + 1, a, b =>
    match a, b with
    | .nil, .nil => some true
    | .int a, .int b => some (a == b)
    | .uint n a, .uint m b => some (n == m && a == b)
    | .float a, .float b => some (FloatArith.eq a b)
    | .bool a, .bool b => some (a == b)
    | .string a, .string b => some (a == b)
    | .json s node, .json s' node' => some (jsonText s node == jsonText s' node')
    | .bytes a, .bytes b => some (a == b)
    | .array a, .array b => do
      let length ← arrayLength m a
      if length ≠ (← arrayLength m b) then some false
      else equalElements m (equalRun m depth) a b length 0
    | .struct d t as, .struct e u bs =>
      if d ≠ e ∨ typeEqual t u = false ∨ as.length ≠ bs.length then some false
      else equalPairs (equalRun m depth) (as.zip bs)
    | .enum d a, .enum e b => some (d == e && a == b)
    | .absent, .absent => some true
    | .present a, .present b => equalRun m depth a b
    | .result p a, .result q b => if p = q then equalRun m depth a b else some false
    | .map as, .map bs =>
      if as.length ≠ bs.length then some false
      else equalEntries (equalRun m depth) (as.zip bs)
    | .handle k a, .handle l b => some (k == l && a == b)
    | .function a, .function b => some (a == b)
    | .set as, .set bs =>
      if as.length ≠ bs.length then some false
      else equalPairs (equalRun m depth) (as.zip bs)
    | _, _ => some false

end Equality

/-! ## What is denoted -/

mutual

/-- The value that a value of the evaluators denotes. -/
inductive Denotes {J : Type} [JsonNode J] (m : Memory (RunValue J)) :
    RunValue J → Value → Prop where
  | nil : Denotes m .nil .nil
  | int (i : Int64) : Denotes m (.int i) (.int i)
  | uint (bits : UInt8) (u : UInt64) : Denotes m (.uint bits u) (.uint bits u)
  | float (f : Float64) : Denotes m (.float f) (.float f)
  | bool (b : Bool) : Denotes m (.bool b) (.bool b)
  | string (s : String) : Denotes m (.string s) (.string s)
  | bytes (bs : List UInt8) : Denotes m (.bytes bs) (.bytes bs)
  | array (a : ArrayValue) (xs : List (RunValue J)) (items : List Value)
      (holds : ValueHolds m a xs) (each : DenotesAll m xs items) :
      Denotes m (.array a) (.array items)
  | struct (decl : String) (type : Ty) (xs : List (RunValue J)) (fields : List Value)
      (each : DenotesAll m xs fields) : Denotes m (.struct decl type xs) (.struct decl type fields)
  | enum (decl variant : String) : Denotes m (.enum decl variant) (.enum decl variant)
  | absent : Denotes m .absent .absent
  | present (x : RunValue J) (v : Value) (inner : Denotes m x v) :
      Denotes m (.present x) (.present v)
  | result (ok : Bool) (x : RunValue J) (v : Value) (inner : Denotes m x v) :
      Denotes m (.result ok x) (.result ok v)
  | map (entries : List (RunValue J × RunValue J)) (ks vs : List Value)
      (keys : DenotesAll m (entries.map (·.1)) ks)
      (values : DenotesAll m (entries.map (·.2)) vs) : Denotes m (.map entries) (.map ks vs)
  | set (xs : List (RunValue J)) (items : List Value) (each : DenotesAll m xs items) :
      Denotes m (.set xs) (.set items)
  | json (s : String) (node : Option J) : Denotes m (.json s node) (.json (jsonText s node))
  | handle (kind : HandleKind) (id : Nat) : Denotes m (.handle kind id) (.handle kind id)
  | function (id : Nat) : Denotes m (.function id) (.function id)

/-- The values that a sequence denotes. -/
inductive DenotesAll {J : Type} [JsonNode J] (m : Memory (RunValue J)) :
    List (RunValue J) → List Value → Prop where
  | nil : DenotesAll m [] []
  | cons (x : RunValue J) (v : Value) (xs : List (RunValue J)) (vs : List Value)
      (head : Denotes m x v) (tail : DenotesAll m xs vs) : DenotesAll m (x :: xs) (v :: vs)

end

/-! ## The loops -/

section Loops

variable {J : Type} {m : Memory (RunValue J)}

variable {xs : List (RunValue J)}

theorem DenotesAll.length [JsonNode J] {vs : List Value} (h : DenotesAll m xs vs) :
    xs.length = vs.length := by
  induction xs generalizing vs with
  | nil => cases h; rfl
  | cons x xs ih =>
    cases h with
    | cons _ v _ vs head tail => rw [length_cons, length_cons, ih tail]

variable {ys : List (RunValue J)}

theorem DenotesAll.not_equal [JsonNode J] [FloatArith] {vs ws : List Value} (h : DenotesAll m xs vs)
    (h' : DenotesAll m ys ws) (hlength : xs.length ≠ ys.length) : equalValues vs ws = false := by
  rw [Bool.eq_false_iff]
  intro hequal
  apply hlength
  rw [h.length, h'.length, equalValues_length hequal]

variable {equal : RunValue J → RunValue J → Option Bool}

theorem equalElements_holds {a b : ArrayValue} (ha : ValueHolds m a xs) (hb : ValueHolds m b ys)
    (hlength : xs.length = ys.length) (left index : Nat) (hleft : index + left = xs.length) :
    equalElements m equal a b left index =
      equalPairs equal ((xs.drop index).zip (ys.drop index)) := by
  induction left generalizing index with
  | zero =>
    rw [drop_of_length_le (by omega), zip_nil_left]
    rfl
  | succ left ih =>
    have hx : index < xs.length := by omega
    have hy : index < ys.length := by omega
    rw [equalElements, arrayAt_eq ha hx, arrayAt_eq hb hy, getElem?_eq_getElem hx,
      getElem?_eq_getElem hy, drop_eq_getElem_cons hx, drop_eq_getElem_cons hy,
      zip_cons_cons, equalPairs, ih (index + 1) (by omega)]
    rfl

theorem equalEntries_eq (as bs : List (RunValue J × RunValue J)) {p q : Bool}
    (hkeys : equalPairs equal ((as.map (·.1)).zip (bs.map (·.1))) = some p)
    (hvalues : equalPairs equal ((as.map (·.2)).zip (bs.map (·.2))) = some q) :
    equalEntries equal (as.zip bs) = some (p && q) := by
  induction as generalizing bs p q with
  | nil =>
    obtain rfl := Option.some.inj hkeys
    obtain rfl := Option.some.inj hvalues
    rfl
  | cons a as ih =>
    cases bs with
    | nil =>
      obtain rfl := Option.some.inj hkeys
      obtain rfl := Option.some.inj hvalues
      rfl
    | cons b bs =>
      obtain ⟨key, hkey, hkeys⟩ := Option.bind_eq_some_iff.mp hkeys
      obtain ⟨value, hvalue, hvalues⟩ := Option.bind_eq_some_iff.mp hvalues
      rw [zip_cons_cons, equalEntries, hkey, hvalue]
      -- The loop ends at the first key or value that differs.
      cases key with
      | false =>
        obtain rfl := Option.some.inj hkeys
        rfl
      | true =>
        cases value with
        | false =>
          obtain rfl := Option.some.inj hvalues
          rw [Bool.and_false]
          rfl
        | true => exact ih bs hkeys hvalues

end Loops

/-! ## Refinement -/

section Refinement

variable {J : Type} [JsonNode J] [FloatArith] {m : Memory (RunValue J)}

theorem equalRun_leaf {a b : RunValue J} {r : Bool}
    (h : ∀ depth, equalRun m (depth + 1) a b = some r) :
    ∃ n, ∀ depth ≥ n, equalRun m depth a b = some r := by
  refine ⟨1, fun depth hdepth => ?_⟩
  obtain ⟨depth, rfl⟩ := Nat.exists_eq_add_of_le' hdepth
  exact h depth

theorem equalRun_node {a b : RunValue J} {r r' : Bool} {below : Nat → Option Bool}
    (hbelow : ∃ n, ∀ depth ≥ n, below depth = some r')
    (h : ∀ depth, below depth = some r' → equalRun m (depth + 1) a b = some r) :
    ∃ n, ∀ depth ≥ n, equalRun m depth a b = some r := by
  obtain ⟨n, hn⟩ := hbelow
  refine ⟨n + 1, fun depth hdepth => ?_⟩
  obtain ⟨depth, rfl⟩ := Nat.exists_eq_add_of_le' (Nat.le_of_add_left_le hdepth)
  exact h depth (hn depth (by omega))

mutual

/-- At every depth from some depth on, the comparison of two values of the evaluators is the
    one of the values that they denote. -/
theorem equalRun_denotes {a b : RunValue J} {v w : Value} (h : Denotes m a v)
    (h' : Denotes m b w) : ∃ n, ∀ depth ≥ n, equalRun m depth a b = some (equalValue v w) := by
  cases h with
  | array a xs items holds each =>
    cases h' with
    | array b ys items' holds' each' =>
      by_cases hlength : xs.length = ys.length
      · apply equalRun_node (equalPairs_denotes each each' hlength)
        intro depth hdepth
        rw [equalRun, arrayLength_eq holds, arrayLength_eq holds']
        simp only [Option.bind_eq_bind, Option.bind_some, hlength]
        rw [if_neg (by simp), ← hlength, equalElements_holds holds holds' hlength _ 0 (by omega)]
        exact hdepth
      · apply equalRun_leaf
        intro depth
        rw [equalRun, arrayLength_eq holds, arrayLength_eq holds', equalValue,
          each.not_equal each' hlength]
        simp [hlength]
    | _ => exact equalRun_leaf fun _ => by simp [equalRun, equalValue]
  | struct d t xs fields each =>
    cases h' with
    | struct e u ys fields' each' =>
      by_cases hhead : d ≠ e ∨ typeEqual t u = false ∨ xs.length ≠ ys.length
      · apply equalRun_leaf
        intro depth
        rw [equalRun, if_pos hhead, equalValue]
        rcases hhead with hdecl | htype | hlength
        · rw [beq_false_of_ne hdecl]
          rfl
        · rw [htype, Bool.and_false]
          rfl
        · rw [each.not_equal each' hlength, Bool.and_false]
      · push Not at hhead
        obtain ⟨rfl, htype, hlength⟩ := hhead
        apply equalRun_node (equalPairs_denotes each each' hlength)
        intro depth hdepth
        rw [equalRun, if_neg (by simp [htype, hlength]), hdepth]
        simp [equalValue, htype]
    | _ => exact equalRun_leaf fun _ => by simp [equalRun, equalValue]
  | present a v inner =>
    cases h' with
    | present b w inner' =>
      apply equalRun_node (equalRun_denotes inner inner')
      intro depth hdepth
      exact hdepth
    | _ => exact equalRun_leaf fun _ => by simp [equalRun, equalValue]
  | result p a v inner =>
    cases h' with
    | result q b w inner' =>
      by_cases hok : p = q
      · apply equalRun_node (equalRun_denotes inner inner')
        intro depth hdepth
        rw [equalRun, if_pos hok, hdepth, equalValue, beq_iff_eq.mpr hok, Bool.true_and]
      · apply equalRun_leaf
        intro depth
        rw [equalRun, if_neg hok, equalValue, beq_false_of_ne hok, Bool.false_and]
    | _ => exact equalRun_leaf fun _ => by simp [equalRun, equalValue]
  | map as ks vs keys values =>
    cases h' with
    | map bs ls ws keys' values' =>
      by_cases hlength : as.length = bs.length
      · have hentries : ∃ n, ∀ depth ≥ n, equalEntries (equalRun m depth) (as.zip bs) =
            some (equalValues ks ls && equalValues vs ws) := by
          obtain ⟨n, hn⟩ := equalPairs_denotes keys keys' (by simpa using hlength)
          obtain ⟨n', hn'⟩ := equalPairs_denotes values values' (by simpa using hlength)
          refine ⟨max n n', fun depth hdepth => ?_⟩
          exact equalEntries_eq as bs (hn depth (le_trans (le_max_left _ _) hdepth))
            (hn' depth (le_trans (le_max_right _ _) hdepth))
        apply equalRun_node hentries
        intro depth hdepth
        rw [equalRun, if_neg (by simp [hlength]), hdepth, equalValue]
      · apply equalRun_leaf
        intro depth
        rw [equalRun, if_pos hlength, equalValue, keys.not_equal keys' (by simpa using hlength)]
        rfl
    | _ => exact equalRun_leaf fun _ => by simp [equalRun, equalValue]
  | set xs items each =>
    cases h' with
    | set ys items' each' =>
      by_cases hlength : xs.length = ys.length
      · apply equalRun_node (equalPairs_denotes each each' hlength)
        intro depth hdepth
        rw [equalRun, if_neg (by simp [hlength]), hdepth, equalValue]
      · apply equalRun_leaf
        intro depth
        rw [equalRun, if_pos hlength, equalValue, each.not_equal each' hlength]
    | _ => exact equalRun_leaf fun _ => by simp [equalRun, equalValue]
  | _ => cases h' <;> exact equalRun_leaf fun _ => by simp [equalRun, equalValue]

theorem equalPairs_denotes {xs ys : List (RunValue J)} {vs ws : List Value}
    (h : DenotesAll m xs vs) (h' : DenotesAll m ys ws) (hlength : xs.length = ys.length) :
    ∃ n, ∀ depth ≥ n, equalPairs (equalRun m depth) (xs.zip ys) = some (equalValues vs ws) := by
  cases h with
  | nil =>
    cases h' with
    | nil => exact ⟨0, fun _ _ => rfl⟩
    | cons _ _ _ _ _ _ => cases hlength
  | cons x v xs vs head tail =>
    cases h' with
    | nil => cases hlength
    | cons y w ys ws head' tail' =>
      obtain ⟨n, hn⟩ := equalRun_denotes head head'
      obtain ⟨n', hn'⟩ := equalPairs_denotes tail tail' (Nat.succ.inj hlength)
      refine ⟨max n n', fun depth hdepth => ?_⟩
      rw [zip_cons_cons, equalPairs, hn depth (le_trans (le_max_left _ _) hdepth),
        hn' depth (le_trans (le_max_right _ _) hdepth), equalValues]
      cases equalValue v w with
      | false => rfl
      | true => rfl

end

end Refinement

end Kryndel
