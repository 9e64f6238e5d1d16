import Kryndel.Values.Value
import Mathlib.Order.Defs.LinearOrder

/-!
# Equality of values

`equalValue` compares two values by their structure, with IEEE equality at the floats. So it
identifies the two zeros and identifies no NaN with itself. It also compares the instance types
of struct values, by a judgement that knows nothing about unknown types and gives up on types
that are nested too deeply.
-/

namespace Kryndel

/-! ## Equality of floats -/

/-- A NaN: all bits of the exponent are set, and some bit of the fraction is. -/
def Float64.isNaN (f : Float64) : Bool :=
  decide (0x7FF0000000000000 < f.bits &&& 0x7FFFFFFFFFFFFFFF)

/-- One of the two zeros. -/
def Float64.isZero (f : Float64) : Bool := f.bits &&& 0x7FFFFFFFFFFFFFFF == 0

/-- IEEE equality. -/
def Float64.equal (a b : Float64) : Bool :=
  !a.isNaN && !b.isNaN && (a == b || a.isZero && b.isZero)

/-- Floating-point arithmetic whose equality is the one of IEEE 754. -/
class BinaryFloats [FloatArith] : Prop where
  eq_equal : ∀ a b : Float64, FloatArith.eq a b = a.equal b

/-- Lean's own binary64 operations, with equality computed from the bits. -/
@[reducible] def binary64 : FloatArith := { ieee with eq := Float64.equal }

theorem binary64_floats : @BinaryFloats binary64 :=
  letI := binary64
  ⟨fun _ _ => rfl⟩

theorem Float64.equal_self (a : Float64) : a.equal a = !a.isNaN := by
  simp [Float64.equal]

theorem Float64.equal_comm (a b : Float64) : a.equal b = b.equal a := by
  rw [Float64.equal, Float64.equal, Bool.and_comm (!a.isNaN), BEq.comm (a := a),
    Bool.and_comm a.isZero]

theorem Float64.equal_trans {a b c : Float64} (hab : a.equal b = true) (hbc : b.equal c = true) :
    a.equal c = true := by
  simp only [Float64.equal, Bool.and_eq_true, Bool.or_eq_true, beq_iff_eq] at hab hbc ⊢
  obtain ⟨⟨ha, -⟩, hab⟩ := hab
  obtain ⟨⟨-, hc⟩, hbc⟩ := hbc
  refine ⟨⟨ha, hc⟩, ?_⟩
  rcases hab with rfl | ⟨hza, hzb⟩
  · exact hbc
  · rcases hbc with rfl | ⟨-, hzc⟩
    · exact Or.inr ⟨hza, hzb⟩
    · exact Or.inr ⟨hza, hzc⟩

/-! ## Equality of types -/

mutual

/-- How many levels a type is nested. -/
def Ty.levels : Ty → Nat
  | .array a | .option a | .channel a | .thread a | .set a | .actor a | .shared a => a.levels + 1
  | .result a b | .map a b => max a.levels b.levels + 1
  | .struct _ params => Ty.levelsAll params + 1
  | .function params ret => max ret.levels (Ty.levelsAll params) + 1
  | _ => 1

/-- The levels of the deepest type of a list. -/
def Ty.levelsAll : List Ty → Nat
  | [] => 0
  | t :: ts => max t.levels (Ty.levelsAll ts)

end

mutual

/-- No part of a type is unknown. -/
def Ty.noUnknown : Ty → Bool
  | .unknown => false
  | .array a | .option a | .channel a | .thread a | .set a | .actor a | .shared a => a.noUnknown
  | .result a b | .map a b => a.noUnknown && b.noUnknown
  | .struct _ params => Ty.noneUnknown params
  | .function params ret => ret.noUnknown && Ty.noneUnknown params
  | _ => true

/-- No part of any type of a list is unknown. -/
def Ty.noneUnknown : List Ty → Bool
  | [] => true
  | t :: ts => t.noUnknown && Ty.noneUnknown ts

end

mutual

theorem eq_of_typeEqualAt (n : Nat) (a b : Ty) (h : typeEqualAt n a b = true) : a = b := by
  cases n with
  | zero => cases a <;> cases h
  | succ n =>
    cases a with
    | array a | option a | channel a | thread a | set a | actor a | shared a =>
      cases b with
      | array b | option b | channel b | thread b | set b | actor b | shared b =>
        first | cases h | rw [eq_of_typeEqualAt n a b h]
      | _ => cases h
    | result a a' | map a a' =>
      cases b with
      | result b b' | map b b' =>
        first
        | cases h
        | obtain ⟨h, h'⟩ := Bool.and_eq_true_iff.mp h
          rw [eq_of_typeEqualAt n a b h, eq_of_typeEqualAt n a' b' h']
      | _ => cases h
    | struct d ps =>
      cases b with
      | struct e qs =>
        obtain ⟨h, h'⟩ := Bool.and_eq_true_iff.mp h
        rw [eq_of_beq h, eq_of_typesEqualAt n ps qs h']
      | _ => cases h
    | function ps r =>
      cases b with
      | function qs s =>
        obtain ⟨h, h'⟩ := Bool.and_eq_true_iff.mp h
        rw [eq_of_typeEqualAt n r s (Bool.and_eq_true_iff.mp h).2, eq_of_typesEqualAt n ps qs h']
      | _ => cases h
    | uint bits =>
      cases b with
      | uint bits' => rw [eq_of_beq (a := bits) (b := bits') h]
      | _ => cases h
    | enum d =>
      cases b with
      | enum e => rw [eq_of_beq (a := d) (b := e) h]
      | _ => cases h
    | generic name constraint =>
      cases b with
      | generic name' constraint' =>
        obtain ⟨h, h'⟩ := Bool.and_eq_true_iff.mp h
        rw [eq_of_beq h, eq_of_beq h']
      | _ => cases h
    -- What is left are types without arguments, which are equal if their kinds are.
    | _ => cases b <;> first | rfl | cases h

theorem eq_of_typesEqualAt (n : Nat) (as bs : List Ty) (h : typesEqualAt n as bs = true) :
    as = bs := by
  match as, bs, h with
  | [], [], _ => rfl
  | a :: as, b :: bs, h =>
    obtain ⟨h, h'⟩ := Bool.and_eq_true_iff.mp h
    rw [eq_of_typeEqualAt n a b h, eq_of_typesEqualAt n as bs h']

end

theorem Ty.levels_pos (t : Ty) : 0 < t.levels := by
  cases t with
  | _ => exact Nat.succ_pos _

mutual

theorem typeEqualAt_self (n : Nat) (t : Ty) :
    typeEqualAt n t t = (t.noUnknown && decide (t.levels ≤ n)) := by
  cases n with
  | zero =>
    rw [decide_eq_false (Nat.not_le.mpr t.levels_pos), Bool.and_false]
    cases t <;> rfl
  | succ n =>
    cases t with
    | unknown => rfl
    | array a | option a | channel a | thread a | set a | actor a | shared a =>
      show typeEqualAt n a a = (a.noUnknown && decide (a.levels + 1 ≤ n + 1))
      rw [typeEqualAt_self n a]
      simp
    | result a b | map a b =>
      show (typeEqualAt n a a && typeEqualAt n b b) =
        (a.noUnknown && b.noUnknown && decide (max a.levels b.levels + 1 ≤ n + 1))
      rw [typeEqualAt_self n a, typeEqualAt_self n b]
      grind
    | struct name params =>
      show (name == name && typesEqualAt n params params) =
        (Ty.noneUnknown params && decide (Ty.levelsAll params + 1 ≤ n + 1))
      rw [typesEqualAt_self n params]
      simp
    | function params ret =>
      show (params.length == params.length && typeEqualAt n ret ret &&
          typesEqualAt n params params) = (ret.noUnknown && Ty.noneUnknown params &&
            decide (max ret.levels (Ty.levelsAll params) + 1 ≤ n + 1))
      rw [typesEqualAt_self n params, typeEqualAt_self n ret]
      grind
    | uint bits | enum bits =>
      show (bits == bits) = (true && decide (1 ≤ n + 1))
      simp
    | generic name constraint =>
      show (name == name && constraint == constraint) = (true && decide (1 ≤ n + 1))
      simp
    | _ => exact (decide_eq_true (Nat.le_add_left 1 n)).symm

theorem typesEqualAt_self (n : Nat) (ts : List Ty) :
    typesEqualAt n ts ts = (Ty.noneUnknown ts && decide (Ty.levelsAll ts ≤ n)) := by
  match ts with
  | [] => rfl
  | t :: ts =>
    show (typeEqualAt n t t && typesEqualAt n ts ts) = (t.noUnknown && Ty.noneUnknown ts &&
      decide (max t.levels (Ty.levelsAll ts) ≤ n))
    rw [typeEqualAt_self n t, typesEqualAt_self n ts]
    grind

end

theorem eq_of_typeEqual {a b : Ty} (h : typeEqual a b = true) : a = b :=
  eq_of_typeEqualAt 129 a b h

theorem typeEqual_self (t : Ty) : typeEqual t t = (t.noUnknown && decide (t.levels ≤ 129)) :=
  typeEqualAt_self 129 t

/-! ## What is equal -/

section Equality

variable [FloatArith]

mutual

/-- Two values that differ at most in their floats, which are equal. -/
inductive SameValue : Value → Value → Prop where
  | nil : SameValue .nil .nil
  | int (i : Int64) : SameValue (.int i) (.int i)
  | uint (bits : UInt8) (u : UInt64) : SameValue (.uint bits u) (.uint bits u)
  | float (a b : Float64) (equal : FloatArith.eq a b = true) : SameValue (.float a) (.float b)
  | bool (b : Bool) : SameValue (.bool b) (.bool b)
  | string (s : String) : SameValue (.string s) (.string s)
  | bytes (bs : List UInt8) : SameValue (.bytes bs) (.bytes bs)
  | array (as bs : List Value) (items : SameValues as bs) : SameValue (.array as) (.array bs)
  | struct (decl : String) (type : Ty) (as bs : List Value) (self : typeEqual type type = true)
      (fields : SameValues as bs) : SameValue (.struct decl type as) (.struct decl type bs)
  | enum (decl variant : String) : SameValue (.enum decl variant) (.enum decl variant)
  | absent : SameValue .absent .absent
  | present (a b : Value) (inner : SameValue a b) : SameValue (.present a) (.present b)
  | result (ok : Bool) (a b : Value) (inner : SameValue a b) :
      SameValue (.result ok a) (.result ok b)
  | map (ks ls vs ws : List Value) (keys : SameValues ks ls) (values : SameValues vs ws) :
      SameValue (.map ks vs) (.map ls ws)
  | set (as bs : List Value) (items : SameValues as bs) : SameValue (.set as) (.set bs)
  | json (text : String) : SameValue (.json text) (.json text)
  | handle (kind : HandleKind) (id : Nat) : SameValue (.handle kind id) (.handle kind id)
  | function (id : Nat) : SameValue (.function id) (.function id)

/-- Two sequences of the same length with the same values. -/
inductive SameValues : List Value → List Value → Prop where
  | nil : SameValues [] []
  | cons (a b : Value) (as bs : List Value) (head : SameValue a b) (tail : SameValues as bs) :
      SameValues (a :: as) (b :: bs)

end

mutual

theorem sameValue_of_equal (a b : Value) (h : equalValue a b = true) : SameValue a b := by
  unfold equalValue at h
  split at h
  case h_1 => exact SameValue.nil
  case h_2 => rw [eq_of_beq h]; exact SameValue.int _
  case h_3 =>
    rw [Bool.and_eq_true] at h
    rw [eq_of_beq h.1, eq_of_beq h.2]
    exact SameValue.uint _ _
  case h_4 => exact SameValue.float _ _ h
  case h_5 => rw [eq_of_beq h]; exact SameValue.bool _
  case h_6 => rw [eq_of_beq h]; exact SameValue.string _
  case h_7 => rw [eq_of_beq h]; exact SameValue.bytes _
  case h_8 as bs => exact SameValue.array as bs (sameValues_of_equal as bs h)
  case h_9 d t as e u bs =>
    rw [Bool.and_eq_true, Bool.and_eq_true] at h
    obtain rfl := eq_of_beq h.1.1
    obtain rfl := eq_of_typeEqual h.1.2
    exact SameValue.struct d t as bs h.1.2 (sameValues_of_equal as bs h.2)
  case h_10 =>
    rw [Bool.and_eq_true] at h
    rw [eq_of_beq h.1, eq_of_beq h.2]
    exact SameValue.enum _ _
  case h_11 => exact SameValue.absent
  case h_12 a b => exact SameValue.present a b (sameValue_of_equal a b h)
  case h_13 p a q b =>
    rw [Bool.and_eq_true] at h
    obtain rfl := eq_of_beq h.1
    exact SameValue.result p a b (sameValue_of_equal a b h.2)
  case h_14 ks vs ls ws =>
    rw [Bool.and_eq_true] at h
    exact SameValue.map ks ls vs ws (sameValues_of_equal ks ls h.1) (sameValues_of_equal vs ws h.2)
  case h_15 as bs => exact SameValue.set as bs (sameValues_of_equal as bs h)
  case h_16 => rw [eq_of_beq h]; exact SameValue.json _
  case h_17 =>
    rw [Bool.and_eq_true] at h
    rw [eq_of_beq h.1, eq_of_beq h.2]
    exact SameValue.handle _ _
  case h_18 => rw [eq_of_beq h]; exact SameValue.function _
  case h_19 => cases h

theorem sameValues_of_equal (as bs : List Value) (h : equalValues as bs = true) :
    SameValues as bs := by
  unfold equalValues at h
  split at h
  case h_1 => exact SameValues.nil
  case h_2 a as b bs =>
    rw [Bool.and_eq_true] at h
    exact SameValues.cons a b as bs (sameValue_of_equal a b h.1) (sameValues_of_equal as bs h.2)
  case h_3 => cases h

end

mutual

theorem SameValue.equal {a b : Value} (h : SameValue a b) : equalValue a b = true := by
  cases h with
  | float a b equal => exact equal
  | array as bs items | present a b items | set as bs items => exact items.equal
  | struct decl type as bs self fields => simp [equalValue, self, fields.equal]
  | result ok a b inner => simp [equalValue, inner.equal]
  | map ks ls vs ws keys values => simp [equalValue, keys.equal, values.equal]
  | _ => simp [equalValue]

theorem SameValues.equal {as bs : List Value} (h : SameValues as bs) :
    equalValues as bs = true := by
  cases h with
  | nil => rfl
  | cons a b as bs head tail => simp [equalValues, head.equal, tail.equal]

end

theorem equalValue_iff {a b : Value} : equalValue a b = true ↔ SameValue a b :=
  ⟨sameValue_of_equal a b, SameValue.equal⟩

theorem equalValues_length {as bs : List Value} (h : equalValues as bs = true) :
    as.length = bs.length := by
  induction as generalizing bs with
  | nil =>
    cases bs with
    | nil => rfl
    | cons b bs => cases h
  | cons a as ih =>
    cases bs with
    | nil => cases h
    | cons b bs =>
      rw [equalValues, Bool.and_eq_true] at h
      rw [List.length_cons, List.length_cons, ih h.2]

/-! ## A partial equivalence -/

mutual

theorem SameValue.symm [BinaryFloats] {a b : Value} (h : SameValue a b) : SameValue b a := by
  cases h with
  | float a b equal =>
    rw [BinaryFloats.eq_equal, Float64.equal_comm, ← BinaryFloats.eq_equal] at equal
    exact SameValue.float b a equal
  | array as bs items => exact SameValue.array bs as items.symm
  | struct decl type as bs self fields => exact SameValue.struct decl type bs as self fields.symm
  | present a b inner => exact SameValue.present b a inner.symm
  | result ok a b inner => exact SameValue.result ok b a inner.symm
  | map ks ls vs ws keys values => exact SameValue.map ls ks ws vs keys.symm values.symm
  | set as bs items => exact SameValue.set bs as items.symm
  | nil => exact SameValue.nil
  | int i => exact SameValue.int i
  | uint bits u => exact SameValue.uint bits u
  | bool b => exact SameValue.bool b
  | string s => exact SameValue.string s
  | bytes bs => exact SameValue.bytes bs
  | enum decl variant => exact SameValue.enum decl variant
  | absent => exact SameValue.absent
  | json text => exact SameValue.json text
  | handle kind id => exact SameValue.handle kind id
  | function id => exact SameValue.function id

theorem SameValues.symm [BinaryFloats] {as bs : List Value} (h : SameValues as bs) :
    SameValues bs as := by
  cases h with
  | nil => exact SameValues.nil
  | cons a b as bs head tail => exact SameValues.cons b a bs as head.symm tail.symm

end

mutual

theorem SameValue.trans [BinaryFloats] {a b c : Value} (h : SameValue a b) (h' : SameValue b c) :
    SameValue a c := by
  cases h with
  | float a b equal =>
    cases h' with
    | float _ c equal' =>
      rw [BinaryFloats.eq_equal] at equal equal'
      apply SameValue.float
      rw [BinaryFloats.eq_equal]
      exact Float64.equal_trans equal equal'
  | array as bs items =>
    cases h' with
    | array _ cs items' => exact SameValue.array as cs (items.trans items')
  | struct decl type as bs self fields =>
    cases h' with
    | struct _ _ _ cs _ fields' =>
      exact SameValue.struct decl type as cs self (fields.trans fields')
  | present a b inner =>
    cases h' with
    | present _ c inner' => exact SameValue.present a c (inner.trans inner')
  | result ok a b inner =>
    cases h' with
    | result _ _ c inner' => exact SameValue.result ok a c (inner.trans inner')
  | map ks ls vs ws keys values =>
    cases h' with
    | map _ ms _ xs keys' values' =>
      exact SameValue.map ks ms vs xs (keys.trans keys') (values.trans values')
  | set as bs items =>
    cases h' with
    | set _ cs items' => exact SameValue.set as cs (items.trans items')
  | _ => exact h'

theorem SameValues.trans [BinaryFloats] {as bs cs : List Value} (h : SameValues as bs)
    (h' : SameValues bs cs) : SameValues as cs := by
  cases h with
  | nil => exact h'
  | cons a b as bs head tail =>
    cases h' with
    | cons _ c _ cs head' tail' =>
      exact SameValues.cons a c as cs (head.trans head') (tail.trans tail')

end

theorem equalValue_comm [BinaryFloats] (a b : Value) : equalValue a b = equalValue b a := by
  rw [Bool.eq_iff_iff, equalValue_iff, equalValue_iff]
  exact ⟨SameValue.symm, SameValue.symm⟩

theorem equalValue_trans [BinaryFloats] {a b c : Value} (hab : equalValue a b = true)
    (hbc : equalValue b c = true) : equalValue a c = true :=
  ((equalValue_iff.mp hab).trans (equalValue_iff.mp hbc)).equal

theorem equalValue_congr [BinaryFloats] {a b : Value} (h : equalValue a b = true) (c : Value) :
    equalValue c a = equalValue c b := by
  rw [Bool.eq_iff_iff]
  constructor
  · intro hca
    exact equalValue_trans hca h
  · intro hcb
    rw [equalValue_comm] at h
    exact equalValue_trans hcb h

/-! ## What is equal to itself -/

mutual

/-- No NaN is inside, and every instance type is one that `typeEqual` compares. -/
def Value.comparable : Value → Bool
  | .float f => !f.isNaN
  | .array items | .set items => Value.allComparable items
  | .struct _ type fields => type.noUnknown && type.levels ≤ 129 && Value.allComparable fields
  | .present inner | .result _ inner => inner.comparable
  | .map keys values => Value.allComparable keys && Value.allComparable values
  | _ => true

/-- All values of a list are comparable. -/
def Value.allComparable : List Value → Bool
  | [] => true
  | v :: vs => v.comparable && Value.allComparable vs

end

mutual

theorem equalValue_self [BinaryFloats] (v : Value) : equalValue v v = v.comparable := by
  cases v with
  | float f => exact (BinaryFloats.eq_equal f f).trans f.equal_self
  | array items => exact equalValues_self items
  | struct decl type fields =>
    simp [equalValue, Value.comparable, typeEqual_self, equalValues_self fields]
  | present inner => exact equalValue_self inner
  | result ok inner => simp [equalValue, Value.comparable, equalValue_self inner]
  | map keys values =>
    simp [equalValue, Value.comparable, equalValues_self keys, equalValues_self values]
  | set items => exact equalValues_self items
  | _ => simp [equalValue, Value.comparable]

theorem equalValues_self [BinaryFloats] (vs : List Value) :
    equalValues vs vs = Value.allComparable vs := by
  match vs with
  | [] => rfl
  | v :: vs => simp [equalValues, Value.allComparable, equalValue_self v, equalValues_self vs]

end

end Equality

end Kryndel
