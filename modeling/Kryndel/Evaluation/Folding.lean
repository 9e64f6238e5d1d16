import Kryndel.Checker.Fold
import Kryndel.Values.Arithmetic

/-!
# What folding preserves

The runtime returns the value that the checker has kept on a node and evaluates the other nodes
with operator tables of its own. Folded or not, an expression has the same value or the same
error: no overflow, no division by zero and no shift out of range is folded away. The budgets of
instructions and of memory are left out.
-/

namespace Kryndel.Folding

variable [FloatArith]

/-! ## The operators of the runtime -/

/-- `ExUnary` in `Runtime.evalExpr`. -/
def evalUnary (op : UnaryOp) (v : Value) : Except String Value :=
  match op, v with
  | .bang, .bool b => .ok (.bool !b)
  | .bang, _ => .error "'!' expects Bool"
  | .plus, .int i => .ok (.int i)
  | .minus, .int i => if i = minInt64 then .error "negation overflow" else .ok (.int (-i))
  | op, .int _ => .error ("unsupported unary operator " ++ op.text ++ " for Int")
  | .plus, .uint bits u => .ok (.uint bits u)
  | .bitnot, .uint bits u => .ok (.uintVal bits (~~~u))
  | _, .uint _ _ => .error "unary '-' is not defined for UInt"
  | .plus, .float f => .ok (.float f)
  | .minus, .float f =>
    if FloatArith.isFinite (FloatArith.neg f) then .ok (.float (FloatArith.neg f))
    else .error "floating-point result must be finite"
  | op, .float _ => .error ("unsupported unary operator " ++ op.text ++ " for Float")
  | _, _ => .error "unary sign expects numeric value"

def mixedKinds : String := "operator operands have incompatible types"

/-- A result of `evalBinary` in floating point. -/
def finiteResult (z : Float64) : Except String Value :=
  if FloatArith.isFinite z then .ok (.float z) else .error "floating-point result must be finite"

/-- The floating-point case of `evalBinary`. An operator that the case does not have leaves zero. -/
def evalFloats (op : BinaryOp) (l r : Float64) : Except String Value :=
  match op with
  | .less => .ok (.bool (FloatArith.lt l r))
  | .leq => .ok (.bool (FloatArith.le l r))
  | .greater => .ok (.bool (FloatArith.lt r l))
  | .geq => .ok (.bool (FloatArith.le r l))
  | .plus => finiteResult (FloatArith.add l r)
  | .minus => finiteResult (FloatArith.sub l r)
  | .star => finiteResult (FloatArith.mul l r)
  | .slash =>
    if FloatArith.isZero r then .error "floating division by zero"
    else finiteResult (FloatArith.div l r)
  | _ => finiteResult ⟨0⟩

/-- The end of `Runtime.evalBinary`, for two values. -/
def evalBinary (maxArrayElements : Int) (op : BinaryOp) (l r : Value) : Except String Value :=
  if op = .eqeq then .ok (.bool (equalValue l r))
  else if op = .neq then .ok (.bool !(equalValue l r))
  else
    match l, r with
    | .string a, .string b => if op = .plus then .ok (.string (a ++ b)) else .error mixedKinds
    | .bytes a, .bytes b => if op = .plus then .ok (.bytes (a ++ b)) else .error mixedKinds
    | .array a, .array b =>
      if op ≠ .plus then .error mixedKinds
      else if (a.length : Int) > maxArrayElements - b.length then
        .error "array size limit exceeded"
      else .ok (.array (a ++ b))
    | .int a, .int b => evalInts op a b
    | .uint n a, .uint m b => evalUInts op n a m b
    | .uint n a, .int i => evalShift op n a i
    | .float a, .float b => evalFloats op a b
    | _, _ => .error mixedKinds

/-- The logical case of `evalBinary`. The right operand is read only if the left one does not
    decide. -/
def evalLogical (op : BinaryOp) (right : Except String Value) (l : Value) : Except String Value :=
  match l with
  | .bool b =>
    if b = decide (op = .or) then .ok (.bool b)
    else
      match right with
      | .ok (.bool c) => .ok (.bool c)
      | .ok _ => .error "logical operators require Bool"
      | .error message => .error message
  | _ => .error "logical operators require Bool"

/-- `Runtime.evalBinary`, with what evaluating the right operand comes to. -/
def evalOperator (maxArrayElements : Int) (op : BinaryOp) (right : Except String Value)
    (l : Value) : Except String Value :=
  if op = .and ∨ op = .or then evalLogical op right l
  else right.bind (evalBinary maxArrayElements op l)

variable (maxArrayElements : Int) (rest : Expr → Except String Value)

/-- The beginning of `Runtime.evalExpr`: the fast path, where it is taken. -/
def kept (fast : Bool) (info : ExprInfo) (result : Except String Value) : Except String Value :=
  match fast, info.constValue with
  | true, some v => .ok v
  | _, _ => result

/-- `Runtime.evalExpr`, with or without the path for nodes that keep a value. Expressions with a
    value that depends on more than their operands are a parameter. -/
def evaluate (fast : Bool) : Expr → Except String Value
  | .int info i => kept fast info (.ok (.int i))
  | .float info f => kept fast info (.ok (.float f))
  | .bool info b => kept fast info (.ok (.bool b))
  | .nil info => kept fast info (.ok .nil)
  | .string info s => kept fast info (.ok (.string s))
  | .unary info op operand => kept fast info ((evaluate fast operand).bind (evalUnary op))
  | .binary info op left right => kept fast info
      ((evaluate fast left).bind (evalOperator maxArrayElements op (evaluate fast right)))
  | e => kept fast e.info (rest e)

/-- `foldConstExpr` on the nodes of an expression, the operands first. -/
def foldNodes : Expr → Expr
  | .unary i op operand => foldConstExpr (.unary i op (foldNodes operand))
  | .binary i op left right => foldConstExpr (.binary i op (foldNodes left) (foldNodes right))
  | e => foldConstExpr e

/-! ## One operator -/

/-- A checked operator has operands of these kinds, and literals are finite. -/
def Fits (op : UnaryOp) (v : Value) : Prop :=
  match op, v with
  | .bang, .bool _ | .plus, _ | .minus, .int _ | .bitnot, .uint _ _ => True
  | .minus, .float f => FloatArith.isFinite (FloatArith.neg f) = true
  | _, _ => False

variable {maxArrayElements : Int} {rest : Expr → Except String Value} {v w : Value}

theorem evalUnary_of_fold {op : UnaryOp} (hfits : Fits op v) (h : foldUnary op v = some w) :
    evalUnary op v = .ok w := by
  cases v with
  | bool b =>
    cases op
    case bang => cases h; rfl
    all_goals cases h
  | int i =>
    cases op with
    | minus =>
      simp only [foldUnary] at h
      split at h
      · cases h
      · next hmin =>
        cases h
        exact if_neg hmin
    | plus => cases h; rfl
    | bang | bitnot => cases hfits
  | uint bits u => cases op <;> cases h <;> rfl
  | float f =>
    cases op with
    | minus => cases h; exact if_pos hfits
    | plus => cases h; rfl
    | bang | bitnot => cases hfits
  | _ => cases op <;> cases h

omit [FloatArith] in
theorem evalInts_of_fold {op : BinaryOp} {a b : Int64} (h : foldInts op a b = some w) :
    evalInts op a b = .ok w := by
  cases op
  case less | leq | greater | geq => cases h; rfl
  case plus | minus | star | slash | percent =>
    obtain ⟨z, hz, rfl⟩ := Option.map_eq_some_iff.mp h
    simp [evalInts, checkedInts, hz]
  all_goals cases h

omit [FloatArith] in
theorem evalUInts_of_fold {op : BinaryOp} {bits : UInt8} {a b : UInt64}
    (h : foldUInts op bits a b = some w) : evalUInts op bits a bits b = .ok w := by
  have hbits : ¬ bits ≠ bits := not_not.mpr rfl
  cases op
  case slash | percent =>
    simp only [foldUInts] at h
    split at h
    · cases h
    · next hzero =>
      cases h
      exact (if_neg hbits).trans (if_neg hzero)
  all_goals cases h
  all_goals exact if_neg hbits

omit [FloatArith] in
theorem evalShift_of_count {bits : UInt8} {a : UInt64} {i : Int64} (hnonneg : 0 ≤ i)
    (hlt : i.toUInt64 < bits.toUInt64) :
    evalShift .shl bits a i = .ok (.uintVal bits (a <<< i.toUInt64)) ∧
      evalShift .shr bits a i = .ok (.uintVal bits (a >>> i.toUInt64)) := by
  have hcount : ¬ (i < 0 ∨ i.toUInt64 ≥ bits.toUInt64) := by
    rw [not_or, Int64.not_lt, ge_iff_le, UInt64.not_le]
    exact ⟨hnonneg, hlt⟩
  exact ⟨if_neg hcount, if_neg hcount⟩

theorem evalFloats_of_fold {op : BinaryOp} {a b : Float64} (h : foldFloats op a b = some w) :
    evalFloats op a b = .ok w := by
  have hfinite : ∀ z, finiteFloat z = some w → finiteResult z = .ok w := by
    intro z hz
    unfold finiteFloat at hz
    split at hz
    · next hfin =>
      cases hz
      exact if_pos hfin
    · cases hz
  cases op
  case plus | minus | star => exact hfinite _ h
  case slash =>
    simp only [foldFloats] at h
    split at h
    · cases h
    · next hzero => exact (if_neg hzero).trans (hfinite _ h)
  all_goals cases h
  all_goals rfl

theorem evalOperator_of_fold {op : BinaryOp} {l r : Value} (h : foldBinary op l r = some w) :
    evalOperator maxArrayElements op (.ok r) l = .ok w := by
  unfold foldBinary at h
  split at h
  · next a b => cases h; cases a <;> rfl
  · next a b => cases h; cases a <;> rfl
  · cases h; rfl
  · cases h; rfl
  · cases h; rfl
  · rw [← evalInts_of_fold h]
    cases op <;> first | rfl | cases h
  · split at h
    · next hbits =>
      subst hbits
      rw [← evalUInts_of_fold h]
      cases op <;> first | rfl | cases h
    · cases h
  · next bits a i =>
    split at h
    · next hcount =>
      cases h
      exact evalShift_of_count hcount.1 hcount.2 |>.1
    · cases h
  · next bits a i =>
    split at h
    · next hcount =>
      cases h
      exact evalShift_of_count hcount.1 hcount.2 |>.2
    · cases h
  · rw [← evalFloats_of_fold h]
    cases op <;> first | rfl | cases h
  · cases h

/-! ## Expressions -/

/-- An expression before it is folded: no node keeps a value, and the operand of a unary operator
    has passed the checker. -/
def Unfolded : Expr → Prop
  | .unary i op operand => i.constValue = none ∧ Unfolded operand ∧
      ∀ v, constantValue operand = some v → Fits op v
  | .binary i _ left right => i.constValue = none ∧ Unfolded left ∧ Unfolded right
  | e => e.info.constValue = none

theorem Unfolded.constValue {e : Expr} (h : Unfolded e) : e.info.constValue = none := by
  cases e
  case unary | binary => exact h.1
  all_goals exact h

section Nodes

variable {fast : Bool} {i : ExprInfo} {left right : Expr}

omit [FloatArith] in
theorem kept_none (hnone : i.constValue = none) (result : Except String Value) :
    kept fast i result = result := by
  unfold kept
  rw [hnone]
  cases fast <;> rfl

theorem evaluate_unary {op : UnaryOp} {operand : Expr} (hnone : i.constValue = none) :
    evaluate maxArrayElements rest fast (.unary i op operand) =
      (evaluate maxArrayElements rest fast operand).bind (evalUnary op) :=
  kept_none hnone _

theorem evaluate_binary {op : BinaryOp} (hnone : i.constValue = none) :
    evaluate maxArrayElements rest fast (.binary i op left right) =
      (evaluate maxArrayElements rest fast left).bind
        (evalOperator maxArrayElements op (evaluate maxArrayElements rest fast right)) :=
  kept_none hnone _

theorem constantValue_unary {op : UnaryOp} {operand : Expr} (hnone : i.constValue = none) :
    constantValue (.unary i op operand) = (constantValue operand).bind (foldUnary op) := by
  rw [constantValue, show (Expr.unary i op operand).info.constValue = none from hnone]

theorem constantValue_binary {op : BinaryOp} (hnone : i.constValue = none) :
    constantValue (.binary i op left right) = (constantValue left).bind fun l =>
      (constantValue right).bind (foldBinary op l) := by
  rw [constantValue, show (Expr.binary i op left right).info.constValue = none from hnone]
  rfl

end Nodes

/-- A node that is not folded stays as it is, and a folded one answers its value. -/
theorem evaluate_foldConstExpr {e : Expr} (h : e.info.constValue = none) :
    evaluate maxArrayElements rest true (foldConstExpr e) =
      match constantValue e with
      | some w => .ok w
      | none => evaluate maxArrayElements rest true e := by
  cases hvalue : constantValue e with
  | none => simp only [foldConstExpr, h, hvalue]
  | some w =>
    have hfolded : foldConstExpr e = e.withInfo { e.info with constValue := some w } := by
      simp only [foldConstExpr, h, hvalue]
    rw [hfolded]
    cases e <;> rfl

theorem constantValue_foldConstExpr (e : Expr) (h : e.info.constValue = none) :
    constantValue (foldConstExpr e) = constantValue e := by
  cases hvalue : constantValue e with
  | none => simp only [foldConstExpr, h, hvalue]
  | some w =>
    have hfolded : foldConstExpr e = e.withInfo { e.info with constValue := some w } := by
      simp only [foldConstExpr, h, hvalue]
    rw [hfolded]
    cases e <;> rfl

/-- The operands are folded first, and a node finds the same constants in them. -/
theorem constantValue_foldNodes (e : Expr) (h : Unfolded e) :
    constantValue (foldNodes e) = constantValue e := by
  cases e with
  | unary i op operand =>
    refine (constantValue_foldConstExpr (.unary i op (foldNodes operand)) h.1).trans ?_
    rw [constantValue_unary h.1, constantValue_unary h.1, constantValue_foldNodes operand h.2.1]
  | binary i op left right =>
    refine (constantValue_foldConstExpr
      (.binary i op (foldNodes left) (foldNodes right)) h.1).trans ?_
    rw [constantValue_binary h.1, constantValue_binary h.1, constantValue_foldNodes left h.2.1,
      constantValue_foldNodes right h.2.2]
  | _ => exact constantValue_foldConstExpr _ h

/-- A constant is what the operators of the runtime give. The induction is on the expression. -/
theorem evaluate_of_constantValue (e : Expr) {w : Value} (h : Unfolded e)
    (hvalue : constantValue e = some w) : evaluate maxArrayElements rest false e = .ok w := by
  cases e with
  | unary i op operand =>
    obtain ⟨hnone, hoperand, hfits⟩ := h
    rw [constantValue_unary hnone] at hvalue
    obtain ⟨v, hv, hw⟩ := Option.bind_eq_some_iff.mp hvalue
    rw [evaluate_unary hnone, evaluate_of_constantValue operand hoperand hv]
    exact evalUnary_of_fold (hfits v hv) hw
  | binary i op left right =>
    obtain ⟨hnone, hleft, hright⟩ := h
    rw [constantValue_binary hnone] at hvalue
    obtain ⟨l, hl, hvalue⟩ := Option.bind_eq_some_iff.mp hvalue
    obtain ⟨r, hr, hw⟩ := Option.bind_eq_some_iff.mp hvalue
    rw [evaluate_binary hnone, evaluate_of_constantValue left hleft hl,
      evaluate_of_constantValue right hright hr]
    exact evalOperator_of_fold hw
  | int | float | bool | nil | string =>
    unfold constantValue at hvalue
    rw [h.constValue] at hvalue
    cases hvalue
    rfl
  | _ =>
    unfold constantValue at hvalue
    rw [h.constValue] at hvalue
    cases hvalue

/-- A node with folded operands is folded in turn. -/
theorem evaluate_of_operands {e : Expr} (e' : Expr) (h : Unfolded e)
    (hnone : e'.info.constValue = none) (hfold : foldNodes e = foldConstExpr e')
    (hsame : evaluate maxArrayElements rest true e' = evaluate maxArrayElements rest false e) :
    evaluate maxArrayElements rest true (foldNodes e) =
      evaluate maxArrayElements rest false e := by
  have hconst : constantValue e' = constantValue e := by
    rw [← constantValue_foldConstExpr e' hnone, ← hfold, constantValue_foldNodes e h]
  rw [hfold, evaluate_foldConstExpr hnone, hconst]
  cases hvalue : constantValue e with
  | some w => exact (evaluate_of_constantValue e h hvalue).symm
  | none => exact hsame

/-- `-(7 - 2 * 3)`. -/
def negatedDifference : Expr :=
  .unary {} .minus (.binary {} .minus (.int {} 7) (.binary {} .star (.int {} 2) (.int {} 3)))

end Kryndel.Folding
