import Kryndel.CBackend.Unsigned

/-!
# Types of expressions over unsigned integers

The executor keeps the width of an unsigned integer with its value, and the checker keeps it in
the type.
-/

namespace Kryndel

open List

/-! ## Types -/

/-- The widths of unsigned integers. -/
inductive Width where
  | w8 | w16 | w32 | w64
deriving DecidableEq

def Width.bits : Width → UInt8
  | w8 => 8
  | w16 => 16
  | w32 => 32
  | w64 => 64

/-- The builtin that converts to a width. -/
def Width.builtin : Width → String
  | w8 => "u8"
  | w16 => "u16"
  | w32 => "u32"
  | w64 => "u64"

inductive Scalar where
  | int | bool | string | float
  | uint (width : Width)

inductive ExprType where
  | scalar (type : Scalar)
  /-- Maps with unsigned integers as keys. -/
  | map (key : Width) (value : Scalar)
  | option (type : Scalar)
  /-- What has been printed. -/
  | printed

def Scalar.name : Scalar → String
  | int => "Int"
  | bool => "Bool"
  | string => "String"
  | float => "Float"
  | uint .w8 => "UInt8"
  | uint .w16 => "UInt16"
  | uint .w32 => "UInt32"
  | uint .w64 => "UInt64"

def ExprType.name : ExprType → String
  | scalar type => type.name
  | map key value => "Map[" ++ (Scalar.uint key).name ++ "," ++ value.name ++ "]"
  | option type => "Option[" ++ type.name ++ "]"
  | printed => "Nil"

/-- Has a value a scalar type? An unsigned integer is below the bound of its width. -/
inductive Scalar.Has : Scalar → Value → Prop where
  | int (i : Int64) : Has .int (.int i)
  | bool (b : Bool) : Has .bool (.bool b)
  | string (s : String) : Has .string (.string s)
  | float (f : Float64) : Has .float (.float f)
  | uint (width : Width) (u : UInt64) (h : u.toNat < 2 ^ width.bits.toNat) :
      Has (.uint width) (.uint width.bits u)

inductive ExprType.Has : ExprType → Value → Prop where
  | scalar {type : Scalar} {v : Value} (h : type.Has v) : Has (.scalar type) v
  | map {key : Width} {value : Scalar} {ks vs : List Value}
      (keys : ∀ k ∈ ks, (Scalar.uint key).Has k) (values : ∀ v ∈ vs, value.Has v) :
      Has (.map key value) (.map ks vs)
  | absent (type : Scalar) : Has (.option type) .absent
  | present {type : Scalar} {v : Value} (h : type.Has v) : Has (.option type) (.present v)
  | printed (s : String) : Has .printed (.string s)

/-- Variables with values of their types. -/
structure Scope where
  types : String → Option ExprType
  values : String → Value
  typed : ∀ name type, types name = some type → type.Has (values name)

/-- The operators that compute a number of the type of the operands. -/
def BinaryOp.isArithmetic (operator : BinaryOp) : Bool :=
  [.plus, .minus, .star, .slash, .percent].contains operator

def BinaryOp.isComparison (operator : BinaryOp) : Bool :=
  [.less, .leq, .greater, .geq].contains operator

def BinaryOp.isEquality (operator : BinaryOp) : Bool :=
  [.eqeq, .neq].contains operator

/-- A call of a builtin. -/
def builtinTree (type name : String) (args : List KIRTree) : KIRTree :=
  .call type { name := name, target := .builtin name, builtinID := name } none args

/-- Expressions over unsigned integers: conversions, arithmetic, comparisons, equality, printing
    and maps with such keys, with the types that the checker records. -/
inductive OfType (scope : Scope) : KIRTree → ExprType → Prop where
  | int (i : Int64) : OfType scope (.int "Int" i) (.scalar .int)
  | bool (b : Bool) : OfType scope (.bool "Bool" b) (.scalar .bool)
  | string (s : String) : OfType scope (.string "String" s) (.scalar .string)
  | var {type : ExprType} {name : String} (binding : String)
      (known : scope.types name = some type) :
      OfType scope (.var type.name name binding) type
  | arithmetic {type : Scalar} {operator : BinaryOp} {left right : KIRTree}
      (number : type = .int ∨ ∃ width, type = .uint width)
      (known : operator.isArithmetic = true) (l : OfType scope left (.scalar type))
      (r : OfType scope right (.scalar type)) :
      OfType scope (.binary type.name operator left right) (.scalar type)
  | comparison {type : Scalar} {operator : BinaryOp} {left right : KIRTree}
      (number : type = .int ∨ ∃ width, type = .uint width)
      (known : operator.isComparison = true) (l : OfType scope left (.scalar type))
      (r : OfType scope right (.scalar type)) :
      OfType scope (.binary "Bool" operator left right) (.scalar .bool)
  | equality {type : Scalar} {operator : BinaryOp} {left right : KIRTree}
      (known : operator.isEquality = true) (l : OfType scope left (.scalar type))
      (r : OfType scope right (.scalar type)) :
      OfType scope (.binary "Bool" operator left right) (.scalar .bool)
  | toUInt {type : Scalar} {e : KIRTree} (width : Width)
      (number : type = .int ∨ ∃ width, type = .uint width)
      (h : OfType scope e (.scalar type)) :
      OfType scope (builtinTree (Scalar.uint width).name width.builtin [e])
        (.scalar (.uint width))
  | toInt {type : Scalar} {e : KIRTree}
      (number : type = .int ∨ type = .bool ∨ ∃ width, type = .uint width)
      (h : OfType scope e (.scalar type)) :
      OfType scope (builtinTree "Int" "int" [e]) (.scalar .int)
  | toFloat {type : Scalar} {e : KIRTree}
      (number : type = .int ∨ ∃ width, type = .uint width)
      (h : OfType scope e (.scalar type)) :
      OfType scope (builtinTree "Float" "float" [e]) (.scalar .float)
  | toBool {type : Scalar} {e : KIRTree} (number : type ≠ .float)
      (h : OfType scope e (.scalar type)) :
      OfType scope (builtinTree "Bool" "bool" [e]) (.scalar .bool)
  | str {type : Scalar} {e : KIRTree} (number : type ≠ .float)
      (h : OfType scope e (.scalar type)) :
      OfType scope (builtinTree "String" "str" [e]) (.scalar .string)
  | print {type : Scalar} {e : KIRTree} (newline : Bool) (number : type ≠ .float)
      (h : OfType scope e (.scalar type)) :
      OfType scope (builtinTree "Nil" (if newline then "println" else "print") [e]) .printed
  | map {key : Width} {value : Scalar} {entries : List (KIRTree × KIRTree)}
      (keys : ∀ entry ∈ entries, OfType scope entry.1 (.scalar (.uint key)))
      (values : ∀ entry ∈ entries, OfType scope entry.2 (.scalar value)) :
      OfType scope (.map (ExprType.map key value).name entries) (.map key value)
  | mapGet {key : Width} {value : Scalar} {m k : KIRTree} (hm : OfType scope m (.map key value))
      (hk : OfType scope k (.scalar (.uint key))) :
      OfType scope (builtinTree (ExprType.option value).name "map_get" [m, k]) (.option value)
  | mapContainsKey {key : Width} {value : Scalar} {m k : KIRTree}
      (hm : OfType scope m (.map key value)) (hk : OfType scope k (.scalar (.uint key))) :
      OfType scope (builtinTree "Bool" "map_contains_key" [m, k]) (.scalar .bool)
  | unwrapOr {type : Scalar} {o d : KIRTree} (ho : OfType scope o (.option type))
      (hd : OfType scope d (.scalar type)) :
      OfType scope (builtinTree type.name "unwrap_or" [o, d]) (.scalar type)

/-! ## Values have their types -/

theorem Width.bits_le (width : Width) : width.bits.toNat ≤ 64 := by
  cases width <;> decide

theorem has_uintVal (width : Width) (u : UInt64) :
    (Scalar.uint width).Has (.uintVal width.bits u) := by
  refine .uint width _ ?_
  rw [toNat_uintWrap width.bits_le]
  exact Nat.mod_lt _ (Nat.two_pow_pos _)

variable {v : Value}

theorem Scalar.Has.int_inv (h : Scalar.int.Has v) : ∃ i, v = .int i := by
  cases h with
  | int i => exact ⟨i, rfl⟩

theorem Scalar.Has.uint_inv {width : Width} (h : (Scalar.uint width).Has v) :
    ∃ u : UInt64, v = .uint width.bits u ∧ u.toNat < 2 ^ width.bits.toNat := by
  cases h with
  | uint _ u hu => exact ⟨u, rfl, hu⟩

variable {type : Scalar}

theorem ExprType.Has.scalar_inv (h : (ExprType.scalar type).Has v) :
    type.Has v := by
  cases h with
  | scalar h => exact h

theorem ExprType.Has.map_inv {key : Width} {value : Scalar} (h : (ExprType.map key value).Has v) :
    ∃ ks vs, v = .map ks vs ∧
      (∀ k ∈ ks, (Scalar.uint key).Has k) ∧ ∀ v ∈ vs, value.Has v := by
  cases h with
  | map keys values => exact ⟨_, _, rfl, keys, values⟩

theorem ExprType.Has.option_inv (h : (ExprType.option type).Has v) :
    v = .absent ∨ ∃ inner, v = .present inner ∧ type.Has inner := by
  cases h with
  | absent => exact .inl rfl
  | present h => exact .inr ⟨_, rfl, h⟩

variable {operator : BinaryOp}

theorem arithmetic_cases (h : operator.isArithmetic = true) :
    operator = .plus ∨ operator = .minus ∨ operator = .star ∨ operator = .slash ∨
      operator = .percent := by
  revert h
  cases operator <;> simp [BinaryOp.isArithmetic]

theorem comparison_cases (h : operator.isComparison = true) :
    operator = .less ∨ operator = .leq ∨ operator = .greater ∨ operator = .geq := by
  revert h
  cases operator <;> simp [BinaryOp.isComparison]

theorem equality_cases (h : operator.isEquality = true) :
    operator = .eqeq ∨ operator = .neq := by
  revert h
  cases operator <;> simp [BinaryOp.isEquality]

theorem evalInts_ok (hop : operator.isArithmetic = true) {a b z : Int64}
    (h : checkedInts operator a b = some z) : evalInts operator a b = .ok (.int z) := by
  rcases arithmetic_cases hop with rfl | rfl | rfl | rfl | rfl <;> simp only [evalInts, h]

theorem evalInts_error (hop : operator.isArithmetic = true) {a b : Int64}
    (h : checkedInts operator a b = none) : ∃ m, evalInts operator a b = .error m := by
  rcases arithmetic_cases hop with rfl | rfl | rfl | rfl | rfl <;> simp only [evalInts, h] <;>
    split <;> (try split) <;> exact ⟨_, rfl⟩

theorem evalInts_arithmetic (hop : operator.isArithmetic = true) (a b : Int64) :
    (∃ z, checkedInts operator a b = some z ∧ evalInts operator a b = .ok (.int z)) ∨
      checkedInts operator a b = none ∧ ∃ m, evalInts operator a b = .error m := by
  cases h : checkedInts operator a b with
  | some z => exact .inl ⟨z, rfl, evalInts_ok hop h⟩
  | none => exact .inr ⟨rfl, evalInts_error hop h⟩

theorem bind_ok {α β : Type} {x : Except String α} {f : α → Except String β} {b : β}
    (h : x.bind f = .ok b) : ∃ a, x = .ok a ∧ f a = .ok b := by
  cases x with
  | error e => cases h
  | ok a => exact ⟨a, rfl, h⟩

section Executor

variable [FloatArith] (conversions : FloatConversions) {scope : Scope}

theorem kirValue_one (env : String → Value) (type name : String) (e : KIRTree) :
    kirValue conversions env (builtinTree type name [e]) =
      (kirValue conversions env e).bind fun v => kirBuiltin conversions name [v] := by
  rw [builtinTree, kirValue, kirValues, kirValues]
  cases kirValue conversions env e <;> rfl

theorem kirValue_two (env : String → Value) (type name : String) (e e₂ : KIRTree) :
    kirValue conversions env (builtinTree type name [e, e₂]) =
      (kirValue conversions env e).bind fun v => (kirValue conversions env e₂).bind fun w =>
        kirBuiltin conversions name [v, w] := by
  rw [builtinTree, kirValue, kirValues, kirValues, kirValues]
  cases kirValue conversions env e with
  | error m => rfl
  | ok v => cases kirValue conversions env e₂ <;> rfl

theorem kirValue_binary (env : String → Value) (type : String) (operator : BinaryOp)
    (l r : KIRTree) :
    kirValue conversions env (.binary type operator l r) =
      (kirValue conversions env l).bind fun v => (kirValue conversions env r).bind fun w =>
        kirBinary operator v w := by
  rfl

theorem kirBinary_arithmetic (hop : operator.isArithmetic = true)
    (hnumber : type = .int ∨ ∃ width, type = .uint width) {a b v : Value} (ha : type.Has a)
    (hb : type.Has b) (h : kirBinary operator a b = .ok v) : type.Has v := by
  rcases hnumber with rfl | ⟨width, rfl⟩
  · obtain ⟨i, rfl⟩ := ha.int_inv
    obtain ⟨j, rfl⟩ := hb.int_inv
    have hcall : kirBinary operator (.int i) (.int j) = evalInts operator i j := by
      rcases arithmetic_cases hop with rfl | rfl | rfl | rfl | rfl <;> rfl
    rw [hcall] at h
    rcases evalInts_arithmetic hop i j with ⟨z, -, hz⟩ | ⟨-, m, hm⟩
    · rw [hz] at h
      cases h
      exact .int z
    · rw [hm] at h
      cases h
  · obtain ⟨u, rfl, -⟩ := ha.uint_inv
    obtain ⟨w, rfl, -⟩ := hb.uint_inv
    rcases arithmetic_cases hop with rfl | rfl | rfl | rfl | rfl <;>
      simp only [kirBinary, evalUInts, ne_eq, not_true_eq_false, if_false] at h
    · cases h
      exact has_uintVal width _
    · cases h
      exact has_uintVal width _
    · cases h
      exact has_uintVal width _
    all_goals
      split at h <;> cases h
      exact has_uintVal width _

theorem kirBinary_comparison (hop : operator.isComparison = true)
    (hnumber : type = .int ∨ ∃ width, type = .uint width) {a b v : Value} (ha : type.Has a)
    (hb : type.Has b) (h : kirBinary operator a b = .ok v) :
    Scalar.bool.Has v := by
  rcases hnumber with rfl | ⟨width, rfl⟩
  · obtain ⟨i, rfl⟩ := ha.int_inv
    obtain ⟨j, rfl⟩ := hb.int_inv
    rcases comparison_cases hop with rfl | rfl | rfl | rfl <;> cases h <;> exact .bool _
  · obtain ⟨u, rfl, -⟩ := ha.uint_inv
    obtain ⟨w, rfl, -⟩ := hb.uint_inv
    rcases comparison_cases hop with rfl | rfl | rfl | rfl <;>
      simp only [kirBinary, evalUInts, ne_eq, not_true_eq_false, if_false] at h <;>
      cases h <;> exact .bool _

variable {w : Value}

theorem text_has {name : String} (hname : name = "str" ∨ name = "print" ∨ name = "println")
    (h : kirBuiltin conversions name [v] = .ok w) : ∃ text, w = .string text := by
  cases htext : scalarText v with
  | none => rcases hname with rfl | rfl | rfl <;> simp [kirBuiltin, htext] at h
  | some text =>
    rcases hname with rfl | rfl | rfl
    all_goals
      simp only [kirBuiltin, htext, Option.map_some, Option.getD_some] at h
      cases h
      exact ⟨_, rfl⟩

theorem toUInt_has (width : Width) (h : kirBuiltin conversions width.builtin [v] = .ok w) :
    (Scalar.uint width).Has w := by
  have hcall : kirBuiltin conversions width.builtin [v] = toUInt v width.bits := by
    cases width <;> rfl
  rw [hcall] at h
  cases v with
  | uint bits n =>
    simp only [toUInt] at h
    split at h <;> cases h
    exact has_uintVal width n
  | int i =>
    simp only [toUInt] at h
    split at h
    · cases h
    · split at h <;> cases h
      exact has_uintVal width _
  | _ => cases h

omit [FloatArith] in
theorem toInt_has (h : toInt v = .ok w) : Scalar.int.Has w := by
  cases v with
  | int i => cases h; exact .int _
  | uint bits n =>
    rw [toInt] at h
    split at h <;> cases h
    exact .int _
  | bool b => cases h; exact .int _
  | _ => cases h

theorem toFloat_has (h : toFloat conversions v = .ok w) :
    Scalar.float.Has w := by
  cases v with
  | float f =>
    rw [toFloat] at h
    split at h <;> cases h
    exact .float _
  | int i => cases h; exact .float _
  | uint bits n => cases h; exact .float _
  | _ => cases h


theorem kirEntries_has {key : Width} {value : Scalar} {env : String → Value}
    {entries : List (KIRTree × KIRTree)}
    (keys : ∀ entry ∈ entries, ∀ v, kirValue conversions env entry.1 = .ok v →
      (Scalar.uint key).Has v)
    (values : ∀ entry ∈ entries, ∀ v, kirValue conversions env entry.2 = .ok v → value.Has v)
    {ks vs : List Value} (hks : ∀ k ∈ ks, (Scalar.uint key).Has k) (hvs : ∀ v ∈ vs, value.Has v)
    (h : kirEntries conversions env ks vs entries = .ok v) :
    (ExprType.map key value).Has v := by
  induction entries generalizing ks vs with
  | nil =>
    cases h
    exact .map hks hvs
  | cons entry rest ih =>
    obtain ⟨x, hx, h⟩ := bind_ok h
    obtain ⟨y, hy, h⟩ := bind_ok h
    split at h
    · cases h
    · apply ih (fun e he => keys e (mem_cons_of_mem _ he))
        (fun e he => values e (mem_cons_of_mem _ he)) ?_ ?_ h
      · intro k hk
        rcases mem_append.mp hk with hk | hk
        · exact hks k hk
        · obtain rfl := mem_singleton.mp hk
          exact keys _ mem_cons_self _ hx
      · intro k hk
        rcases mem_append.mp hk with hk | hk
        · exact hvs k hk
        · obtain rfl := mem_singleton.mp hk
          exact values _ mem_cons_self _ hy

theorem findKey_has {ks vs : List Value} (hvs : ∀ v ∈ vs, type.Has v) (key : Value) :
    (ExprType.option type).Has (findKey key ks vs) := by
  induction ks generalizing vs with
  | nil =>
    rw [findKey]
    · exact .absent _
    · simp
  | cons k ks ih =>
    cases vs with
    | nil =>
      rw [findKey]
      · exact .absent _
      · simp
    | cons v vs =>
      rw [findKey]
      split
      · exact .present (hvs v mem_cons_self)
      · exact ih fun w hw => hvs w (mem_cons_of_mem _ hw)

/-- A value has the type of its expression. -/
theorem typed_value {e : KIRTree} {type : ExprType} (h : OfType scope e type)
    (hv : kirValue conversions scope.values e = .ok v) : type.Has v := by
  induction h generalizing v with
  | int i | bool b | string s =>
    cases hv
    exact .scalar (by constructor)
  | var binding known =>
    rw [kirValue] at hv
    cases hv
    exact scope.typed _ _ known
  | arithmetic number known l r ihl ihr =>
    obtain ⟨a, ha, hv⟩ := bind_ok hv
    obtain ⟨b, hb, hv⟩ := bind_ok hv
    exact .scalar (kirBinary_arithmetic known number (ihl ha).scalar_inv (ihr hb).scalar_inv hv)
  | comparison number known l r ihl ihr =>
    rw [kirValue_binary] at hv
    obtain ⟨a, ha, hv⟩ := bind_ok hv
    obtain ⟨b, hb, hv⟩ := bind_ok hv
    exact .scalar (kirBinary_comparison known number (ihl ha).scalar_inv (ihr hb).scalar_inv hv)
  | equality known l r ihl ihr =>
    rw [kirValue_binary] at hv
    obtain ⟨a, ha, hv⟩ := bind_ok hv
    obtain ⟨b, hb, hv⟩ := bind_ok hv
    rcases equality_cases known with rfl | rfl <;> cases hv <;> exact .scalar (.bool _)
  | toUInt width number h ih =>
    rw [kirValue_one] at hv
    obtain ⟨a, ha, hv⟩ := bind_ok hv
    exact .scalar (toUInt_has conversions width hv)
  | toInt number h ih =>
    rw [kirValue_one] at hv
    obtain ⟨a, ha, hv⟩ := bind_ok hv
    exact .scalar (toInt_has hv)
  | toFloat number h ih =>
    rw [kirValue_one] at hv
    obtain ⟨a, ha, hv⟩ := bind_ok hv
    exact .scalar (toFloat_has conversions hv)
  | toBool number h ih =>
    rw [kirValue_one] at hv
    obtain ⟨a, ha, hv⟩ := bind_ok hv
    cases hv
    exact .scalar (.bool _)
  | str number h ih =>
    rw [kirValue_one] at hv
    obtain ⟨a, ha, hv⟩ := bind_ok hv
    obtain ⟨text, rfl⟩ := text_has conversions (.inl rfl) hv
    exact .scalar (.string text)
  | print newline number h ih =>
    rw [kirValue_one] at hv
    obtain ⟨a, ha, hv⟩ := bind_ok hv
    cases newline with
    | false =>
      obtain ⟨text, rfl⟩ := text_has conversions (.inr (.inl rfl)) hv
      exact .printed text
    | true =>
      obtain ⟨text, rfl⟩ := text_has conversions (.inr (.inr rfl)) hv
      exact .printed text
  | map keys values ihk ihv =>
    rw [kirValue] at hv
    exact kirEntries_has conversions (fun e he v h => (ihk e he h).scalar_inv)
      (fun e he v h => (ihv e he h).scalar_inv) (fun k hk => by cases hk) (fun k hk => by cases hk)
      hv
  | mapGet hm hk ihm ihk =>
    rw [kirValue_two] at hv
    obtain ⟨a, ha, hv⟩ := bind_ok hv
    obtain ⟨b, hb, hv⟩ := bind_ok hv
    obtain ⟨ks, vs, rfl, -, hvs⟩ := (ihm ha).map_inv
    cases hv
    exact findKey_has hvs b
  | mapContainsKey hm hk ihm ihk =>
    rw [kirValue_two] at hv
    obtain ⟨a, ha, hv⟩ := bind_ok hv
    obtain ⟨b, hb, hv⟩ := bind_ok hv
    obtain ⟨ks, vs, rfl, -, -⟩ := (ihm ha).map_inv
    cases hv
    exact .scalar (.bool _)
  | unwrapOr ho hd iho ihd =>
    rw [kirValue_two] at hv
    obtain ⟨a, ha, hv⟩ := bind_ok hv
    obtain ⟨b, hb, hv⟩ := bind_ok hv
    rcases (iho ha).option_inv with rfl | ⟨inner, rfl, hinner⟩
    · cases hv
      exact ihd hb
    · cases hv
      exact .scalar hinner

end Executor

end Kryndel
