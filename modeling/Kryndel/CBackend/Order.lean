import Kryndel.CBackend.Expression
import Kryndel.Evaluation.Renaming

/-!
# The order in which emitted C evaluates operands

The language evaluates an expression from left to right, every operand once, and the right
operand of `&&` and `||` only when the left one does not decide the result (`evaluate`). The
emitted C evaluates the arguments of a routine in any order, and all of them. The two agree,
event by event, exactly when the expression is settled: among the operands of an operator
that becomes a plain call there is at most one operator, no variable among them is seen to
change, and no `&&` or `||` is decided before its operator.
-/

namespace Kryndel

open Operands List Option

/-! ## Operations -/

/-- The operations of the KIR executor (`evalExpr`), with the recorded types that they
    check their results against. -/
inductive KIROp where
  | array (type : String)
  | set (type : String)
  /-- One more entry of a map literal. -/
  | mapEntry
  | map (type : String)
  | struct (type structName : String) (fields : List String)
  | unary (type : String) (operator : UnaryOp)
  | binary (type : String) (operator : BinaryOp) (left right : String)
  | index (type : String)
  | field (type base name : String)
  | propagate
  /-- The check of the call depth. -/
  | enter
  | builtin (type name : String) (arity : Nat) (worker : Option String)
  | call (type : String) (call : KIRCall) (receiver : Option String)
deriving DecidableEq, Repr, Inhabited

/-- How the evaluation of an expression stops. -/
inductive Stop where
  /-- A diagnostic, or `kfail` in C. -/
  | failed (message : String)
  /-- `?` leaves the function with its operand. -/
  | returned (value : Value)
deriving Repr, Inhabited

/-- Is the value the boolean `true`? -/
def Value.isTrue : Value → Bool
  | .bool b => b
  | _ => false

/-- `?` on a value. -/
def propagated : Value → Except Stop Value
  | .absent => .error (.returned .absent)
  | .present inner => .ok inner
  | .result true inner => .ok inner
  | .result false inner => .error (.returned (.result false inner))
  | _ => .error (.failed "'?' requires an Option or Result")

/-- How variables are read, and what operations do. -/
structure Evaluator (σ : Type) where
  read : σ → String → Value
  perform : KIROp → List Value → σ → Except Stop Value × σ

/-- The machine of an evaluator. -/
def Evaluator.machine {σ : Type} (ev : Evaluator σ) : Machine σ Value Stop String KIROp where
  read := ev.read
  apply := ev.perform
  truth := Value.isTrue
  bool := .bool

/-- What all evaluations use: variables, the call depth, the operations of the executor and
    the routines of the C runtime. -/
structure Runtime (σ : Type) where
  read : σ → String → Value
  /-- Is the limit of nested calls reached? -/
  full : σ → Bool
  operation : KIROp → List Value → σ → Except Stop Value × σ
  routine : COp → List Value → σ → Except Stop Value × σ

namespace Runtime

variable {σ : Type} (rt : Runtime σ)

/-- The check of the call depth. -/
def checkDepth (s : σ) : Except Stop Value × σ :=
  (if rt.full s then .error (.failed "call depth limit exceeded") else .ok .nil, s)

/-- The language: `?` leaves the expression at once. -/
def language : Evaluator σ where
  read := rt.read
  perform
    | .enter, _, s => rt.checkDepth s
    | .propagate, vs, s => (propagated (vs.headD .nil), s)
    | op, vs, s => rt.operation op vs s

/-- The KIR executor: `?` notes its operand in `propagated`, beside the state, and the
    evaluation goes on with `nil`. -/
def executor : Evaluator (σ × Option Value) where
  read s := rt.read s.1
  perform
    | .enter, _, s => ((rt.checkDepth s.1).1, (rt.checkDepth s.1).2, s.2)
    | .propagate, vs, s =>
      match propagated (vs.headD .nil) with
      | .error (.returned v) => (.ok .nil, s.1, some v)
      | result => (result, s)
    | op, vs, s => ((rt.operation op vs s.1).1, (rt.operation op vs s.1).2, s.2)

/-- What emitted C does with the values of operands. -/
def execute : COp → List Value → σ → Except Stop Value × σ
  | .enter, _, s => rt.checkDepth s
  | .propagate, vs, s => (propagated (vs.headD .nil), s)
  | op, vs, s => rt.routine op vs s

/-- The machine of emitted C. -/
def cMachine : Machine σ Value Stop String COp where
  read := rt.read
  apply := rt.execute
  truth := Value.isTrue
  bool := .bool

end Runtime

/-! ## The language's evaluation -/

section Evaluate

variable {σ : Type} (ev : Evaluator σ)

/-- An operation is applied at a place. -/
def applied (place : List Nat) (op : KIROp) (vs : List Value) (s : σ) :
    Run σ Value Stop (List Nat) Value :=
  Event.run ⟨place, vs, (ev.perform op vs s).1, (ev.perform op vs s).2⟩

/-- The result of `&&` or `||` is known. -/
def decided (place : List Nat) (b : Bool) (s : σ) : Run σ Value Stop (List Nat) Value :=
  Event.run ⟨place, [], .ok (.bool b), s⟩

/-- A value is known at once. -/
def known {α : Type} (a : α) (s : σ) : Run σ Value Stop (List Nat) α :=
  ([], .ok a, s)

mutual

/-- The language's evaluation of the expression at a place: operands from left to right, a
    receiver before the arguments, a key before its value, and the right operand of `&&` and
    `||` only when the left one does not decide the result. -/
def evaluate (place : List Nat) : KIRTree → σ → Run σ Value Stop (List Nat) Value
  | .int _ i, s => known (.int i) s
  | .float _ x, s => known (.float x) s
  | .bool _ b, s => known (.bool b) s
  | .nil _, s => known .nil s
  | .string _ text, s => known (.string text) s
  | .var _ name _, s => known (ev.read s name) s
  | .enum _ enumType variant, s => known (.enum enumType variant) s
  | .array type items, s => (evaluateAll place 0 items s).andThen (applied ev place (.array type))
  | .set type items, s => (evaluateAll place 0 items s).andThen (applied ev place (.set type))
  | .map type entries, s =>
    (evaluateEntries place 0 (.map [] []) entries s).andThen fun built s =>
      applied ev place (.map type) [built] s
  | .struct type structName fields, s =>
    (evaluateFields place 0 fields s).andThen
      (applied ev place (.struct type structName (fields.map Prod.fst)))
  | .unary type operator operand, s =>
    (evaluate (0 :: place) operand s).andThen fun v s =>
      match operator with
      | .plus => known v s
      | operator => applied ev place (.unary type operator) [v] s
  | .binary type operator left right, s =>
    (evaluate (0 :: place) left s).andThen fun v s =>
      match operator with
      | .and =>
        if v.isTrue then
          (evaluate (1 :: place) right s).andThen fun w s => decided place w.isTrue s
        else decided place false s
      | .or =>
        if v.isTrue then decided place true s
        else (evaluate (1 :: place) right s).andThen fun w s => decided place w.isTrue s
      | operator =>
        (evaluate (1 :: place) right s).andThen fun w s =>
          applied ev place (.binary type operator left.type right.type) [v, w] s
  | .index type base left, s =>
    (evaluate (0 :: place) base s).andThen fun v s =>
      (evaluate (1 :: place) left s).andThen fun w s => applied ev place (.index type) [v, w] s
  | .field type base name, s =>
    (evaluate (0 :: place) base s).andThen fun v s =>
      applied ev place (.field type base.type name) [v] s
  | .propagate _ operand, s =>
    (evaluate (0 :: place) operand s).andThen fun v s => applied ev place .propagate [v] s
  | .call type call none args, s =>
    match call.target with
    | .builtin name =>
      (evaluateAll place 0 args s).andThen
        (applied ev place (.builtin type name args.length (Cgen.literalWorker name args)))
    | _ =>
      (applied ev (0 :: place) .enter [] s).andThen fun checked s =>
        (evaluateAll place 1 args s).andThen fun vs s =>
          applied ev place (.call type call none) (checked :: vs) s
  | .call type call (some receiver) args, s =>
    (applied ev (0 :: place) .enter [] s).andThen fun checked s =>
      (evaluate (1 :: place) receiver s).andThen fun v s =>
        (evaluateAll place 2 args s).andThen fun vs s =>
          applied ev place (.call type call (some receiver.type)) (checked :: v :: vs) s

/-- Expressions from left to right, at places from `i` on. -/
def evaluateAll (place : List Nat) (i : Nat) :
    List KIRTree → σ → Run σ Value Stop (List Nat) (List Value)
  | [], s => known [] s
  | e :: es, s =>
    (evaluate (i :: place) e s).andThen fun v s =>
      (evaluateAll place (i + 1) es s).andThen fun vs s => known (v :: vs) s

/-- The values of fields in the order in which they are written. -/
def evaluateFields (place : List Nat) (i : Nat) :
    List (String × KIRTree) → σ → Run σ Value Stop (List Nat) (List Value)
  | [], s => known [] s
  | (_, e) :: fields, s =>
    (evaluate (i :: place) e s).andThen fun v s =>
      (evaluateFields place (i + 1) fields s).andThen fun vs s => known (v :: vs) s

/-- The entries of a map literal, after those that are built already. -/
def evaluateEntries (place : List Nat) (i : Nat) (built : Value) :
    List (KIRTree × KIRTree) → σ → Run σ Value Stop (List Nat) Value
  | [], s => known built s
  | (key, value) :: rest, s =>
    (evaluate (i :: place) key s).andThen fun k s =>
      (evaluate ((i + 1) :: place) value s).andThen fun v s =>
        (applied ev ((i + 2) :: place) .mapEntry [built, k, v] s).andThen fun built s =>
          evaluateEntries place (i + 3) built rest s

end

end Evaluate

/-! ## Marked operators -/

/-- The operator of a binary expression: `&&` and `||` are connectives. -/
def binaryForm (type : String) (operator : BinaryOp) (left right : String) : Form KIROp :=
  match operator with
  | .and => .connective false
  | .or => .connective true
  | operator => .unordered (.binary type operator left right)

mutual

/-- The expression at a place, with the operators marked whose operands become arguments of
    a C routine. -/
def KIRTree.marked (place : List Nat) : KIRTree → Term (List Nat) Value String KIROp
  | .int _ i => .value (.int i)
  | .float _ x => .value (.float x)
  | .bool _ b => .value (.bool b)
  | .nil _ => .value .nil
  | .string _ text => .value (.string text)
  | .var _ name _ => .var name
  | .enum _ enumType variant => .value (.enum enumType variant)
  | .array type items => .node place (.ordered (.array type)) (markedAll place 0 items)
  | .set type items => .node place (.ordered (.set type)) (markedAll place 0 items)
  | .map type entries =>
    .node place (.ordered (.map type)) [markedEntries place 0 (.value (.map [] [])) entries]
  | .struct type structName fields =>
    .node place (.ordered (.struct type structName (fields.map Prod.fst)))
      (markedFields place 0 fields)
  | .unary type operator operand =>
    match operator with
    -- the operand alone
    | .plus => operand.marked (0 :: place)
    | operator => .node place (.unordered (.unary type operator)) [operand.marked (0 :: place)]
  | .binary type operator left right =>
    .node place (binaryForm type operator left.type right.type)
      [left.marked (0 :: place), right.marked (1 :: place)]
  | .index type base left =>
    .node place (.unordered (.index type)) [base.marked (0 :: place), left.marked (1 :: place)]
  | .field type base name =>
    .node place (.unordered (.field type base.type name)) [base.marked (0 :: place)]
  | .propagate _ operand => .node place (.ordered .propagate) [operand.marked (0 :: place)]
  | .call type call none args =>
    match call.target with
    | .builtin name =>
      .node place
        (.unordered (.builtin type name args.length (Cgen.literalWorker name args)))
        (markedAll place 0 args)
    | _ =>
      .node place (.ordered (.call type call none))
        (.node (0 :: place) (.ordered .enter) [] :: markedAll place 1 args)
  | .call type call (some receiver) args =>
    .node place (.ordered (.call type call (some receiver.type)))
      (.node (0 :: place) (.ordered .enter) [] :: receiver.marked (1 :: place) ::
        markedAll place 2 args)

/-- `marked` for expressions at places from `i` on. -/
def markedAll (place : List Nat) (i : Nat) :
    List KIRTree → List (Term (List Nat) Value String KIROp)
  | [] => []
  | e :: es => e.marked (i :: place) :: markedAll place (i + 1) es

/-- `marked` for the values of fields. -/
def markedFields (place : List Nat) (i : Nat) :
    List (String × KIRTree) → List (Term (List Nat) Value String KIROp)
  | [] => []
  | (_, e) :: fields => e.marked (i :: place) :: markedFields place (i + 1) fields

/-- `marked` for the entries of a map literal after those in `entries`. -/
def markedEntries (place : List Nat) (i : Nat) (entries : Term (List Nat) Value String KIROp) :
    List (KIRTree × KIRTree) → Term (List Nat) Value String KIROp
  | [] => entries
  | (key, value) :: rest =>
    markedEntries place (i + 3)
      (.node ((i + 2) :: place) (.ordered .mapEntry)
        [entries, key.marked (i :: place), value.marked ((i + 1) :: place)]) rest

end

/-- What becomes of an operation in C. The backend refuses expressions with an operation that
    becomes nothing; the C operation in that case is never used. -/
def Cgen.lower (g : Cgen) : KIROp → COp
  | .array _ => .array
  | .set _ => .set
  | .mapEntry => .mapEntry
  | .map _ => .map
  | .struct type structName fields => (g.structLiteral type structName fields).getD .array
  | .unary _ operator => (Cgen.unary operator).getD .array
  | .binary type operator left right => (Cgen.binary type operator left right).getD .array
  | .index _ => .routine "k_index" []
  | .field _ base name => (g.field base name).getD .array
  | .propagate => .propagate
  | .enter => .enter
  | .builtin _ name arity worker => (g.builtinCall name arity worker).getD .array
  | .call _ call receiver => (g.functionCall call receiver).getD (.call "")

theorem enumConstant_eq {g : Cgen} {enumType variant : String} {v : Value}
    (known : g.enumConstant enumType variant = some v) : v = .enum enumType variant := by
  simp only [Cgen.enumConstant, bind_eq_some_iff] at known
  obtain ⟨decl, -, known⟩ := known
  split at known
  · simpa [eq_comm] using known
  · cases known

mutual

/-- An emitted expression is the marked one, with the names of the C operations. -/
theorem expr_eq_rename {g : Cgen} {place : List Nat} {e : KIRTree} {c : CExpr}
    (accepted : g.expr place e = some c) : c = (e.marked place).rename g.lower := by
  cases e with
    try simp only [Cgen.expr, bind_eq_bind, bind_eq_some_iff,
      Option.some.injEq] at accepted
  | int | float | bool | nil | string | var =>
    simpa [KIRTree.marked, Term.rename, eq_comm] using accepted
  | enum type enumType variant =>
    obtain ⟨v, known, rfl⟩ := map_eq_some_iff.mp accepted
    rw [enumConstant_eq known, KIRTree.marked, Term.rename]
  | array type items | set type items =>
    obtain ⟨cs, items, rfl⟩ := accepted
    rw [exprs_eq_rename items, KIRTree.marked, Term.rename]
    rfl
  | map type entries =>
    obtain ⟨c, entries, rfl⟩ := accepted
    have built := @mapEntries_eq_rename g _ _ (.value (.map [] [])) _ _ entries
    rw [built, KIRTree.marked, Term.rename]
    rfl
  | struct type structName fields =>
    obtain ⟨op, literal, cs, values, rfl⟩ := accepted
    rw [fieldValues_eq_rename values, KIRTree.marked, Term.rename]
    simp only [Form.rename, Cgen.lower, literal, getD_some]
  | unary type operator operand =>
    obtain ⟨c, inner, accepted⟩ := accepted
    have inner := expr_eq_rename inner
    cases operator <;>
      simp [Cgen.unary] at accepted <;>
      simp [← accepted, inner, KIRTree.marked, Term.rename, renameAll, Form.rename, Cgen.lower,
        Cgen.unary]
  | binary type operator left right =>
    obtain ⟨l, first, r, second, accepted⟩ := accepted
    have first := expr_eq_rename first
    have second := expr_eq_rename second
    cases operator <;>
      simp [Cgen.binary] at accepted <;>
      simp [← accepted, first, second, KIRTree.marked, binaryForm, Term.rename, renameAll,
        Form.rename, Cgen.lower, Cgen.binary]
  | index type base left =>
    obtain ⟨b, first, l, second, rfl⟩ := accepted
    rw [expr_eq_rename first, expr_eq_rename second, KIRTree.marked, Term.rename]
    rfl
  | field type base name =>
    obtain ⟨op, found, b, first, rfl⟩ := accepted
    rw [expr_eq_rename first, KIRTree.marked, Term.rename]
    simp [renameAll, Form.rename, Cgen.lower, found]
  | propagate type operand =>
    obtain ⟨c, inner, rfl⟩ := accepted
    rw [expr_eq_rename inner, KIRTree.marked, Term.rename]
    rfl
  | call type call receiver args =>
    cases receiver with
    | none =>
      cases target : call.target with
      | builtin name =>
        simp only [Cgen.expr, target] at accepted
        split at accepted
        · cases accepted
        · simp only [bind_eq_bind, bind_eq_some_iff, Option.some.injEq] at accepted
          obtain ⟨op, found, cs, inside, rfl⟩ := accepted
          rw [exprs_eq_rename inside]
          simp only [KIRTree.marked, target, Term.rename, Form.rename, Cgen.lower, found,
            getD_some]
      | function | trait =>
        simp only [Cgen.expr, target, bind_eq_bind, bind_eq_some_iff,
          Option.some.injEq] at accepted
        obtain ⟨op, found, cs, inside, rfl⟩ := accepted
        rw [exprs_eq_rename inside]
        simp only [KIRTree.marked, target, Term.rename, renameAll, Form.rename, Cgen.lower, found,
          getD_some]
    | some receiver =>
      simp only [Cgen.expr, bind_eq_bind, bind_eq_some_iff,
      Option.some.injEq] at accepted
      obtain ⟨op, found, self, first, cs, others, rfl⟩ := accepted
      rw [expr_eq_rename first, exprs_eq_rename others, KIRTree.marked, Term.rename]
      simp [renameAll, Form.rename, Cgen.lower, found, Term.rename]

theorem exprs_eq_rename {g : Cgen} {place : List Nat} {i : Nat} {es : List KIRTree}
    {cs : List CExpr} (accepted : g.exprs place i es = some cs) :
    cs = renameAll g.lower (markedAll place i es) := by
  cases es with
  | nil => simpa [Cgen.exprs, markedAll, renameAll, eq_comm] using accepted
  | cons e es =>
    simp only [Cgen.exprs, bind_eq_bind, bind_eq_some_iff] at accepted
    obtain ⟨c, first, cs, others, same⟩ := accepted
    simp only [Option.some.injEq] at same
    rw [← same, expr_eq_rename first, exprs_eq_rename others, markedAll, renameAll]

theorem fieldValues_eq_rename {g : Cgen} {place : List Nat} {i : Nat}
    {fields : List (String × KIRTree)} {cs : List CExpr}
    (accepted : g.fieldValues place i fields = some cs) :
    cs = renameAll g.lower (markedFields place i fields) := by
  cases fields with
  | nil => simpa [Cgen.fieldValues, markedFields, renameAll, eq_comm] using accepted
  | cons field fields =>
    simp only [Cgen.fieldValues, bind_eq_bind, bind_eq_some_iff] at accepted
    obtain ⟨c, first, cs, others, same⟩ := accepted
    simp only [Option.some.injEq] at same
    rw [← same, expr_eq_rename first, fieldValues_eq_rename others, markedFields, renameAll]

theorem mapEntries_eq_rename {g : Cgen} {place : List Nat} {i : Nat}
    {start : Term (List Nat) Value String KIROp} {entries : List (KIRTree × KIRTree)} {c : CExpr}
    (accepted : g.mapEntries place i (start.rename g.lower) entries = some c) :
    c = (markedEntries place i start entries).rename g.lower := by
  cases entries with
  | nil => simpa [Cgen.mapEntries, markedEntries, eq_comm] using accepted
  | cons entry rest =>
    simp only [Cgen.mapEntries, bind_eq_bind, bind_eq_some_iff] at accepted
    obtain ⟨k, first, v, second, others⟩ := accepted
    rw [markedEntries]
    apply mapEntries_eq_rename
    rw [expr_eq_rename first, expr_eq_rename second] at others
    exact others

end

/-! ## The language's evaluation is the evaluation in order -/

section InOrder

variable {σ : Type} (ev : Evaluator σ)

theorem andThen_assoc {α β γ : Type} (r : Run σ Value Stop (List Nat) α)
    (f : α → σ → Run σ Value Stop (List Nat) β) (h : β → σ → Run σ Value Stop (List Nat) γ) :
    (r.andThen f).andThen h = r.andThen fun a s => (f a s).andThen h := by
  rcases r with ⟨trace, x | a, s⟩
  · rfl
  · rw [andThen_ok, andThen_ok]
    generalize f a s = run
    rcases run with ⟨trace', x | b, s'⟩ <;> simp

@[simp] theorem known_andThen {α β : Type} (a : α) (s : σ)
    (f : α → σ → Run σ Value Stop (List Nat) β) : (known a s).andThen f = f a s := by
  simp [known]

theorem never_ordered (op : KIROp) (v : Value) :
    ev.machine.decides (.ordered op) v = false := rfl

theorem never_unordered (op : KIROp) (v : Value) :
    ev.machine.decides (.unordered op) v = false := rfl

theorem evalOperands_nil (form : Form KIROp) (s : σ) :
    (evalOperands ev.machine form [] s : Run σ Value Stop (List Nat) (List Value)) =
      known [] s := by
  rw [evalOperands, known]

theorem eval_value (v : Value) (s : σ) :
    (eval ev.machine (.value v) s : Run σ Value Stop (List Nat) Value) = known v s := by
  rw [eval, known]

theorem evalOperands_cons {form : Form KIROp}
    (never : ∀ v, ev.machine.decides form v = false)
    (t : Term (List Nat) Value String KIROp) (ts : List (Term (List Nat) Value String KIROp))
    (s : σ) :
    (evalOperands ev.machine form (t :: ts) s : Run σ Value Stop (List Nat) (List Value)) =
      (eval ev.machine t s).andThen fun v s' =>
        (evalOperands ev.machine form ts s').andThen fun vs s'' => known (v :: vs) s'' := by
  simp only [evalOperands, never, Bool.false_eq_true, if_false, known]

theorem eval_ordered (place : List Nat) (op : KIROp)
    (ts : List (Term (List Nat) Value String KIROp)) (s : σ) :
    (eval ev.machine (.node place (.ordered op) ts) s : Run σ Value Stop (List Nat) Value) =
      (evalOperands ev.machine (.ordered op) ts s).andThen (applied ev place op) := by
  rfl

theorem eval_unordered (place : List Nat) (op : KIROp)
    (ts : List (Term (List Nat) Value String KIROp)) (s : σ) :
    (eval ev.machine (.node place (.unordered op) ts) s : Run σ Value Stop (List Nat) Value) =
      (evalOperands ev.machine (.unordered op) ts s).andThen (applied ev place op) := by
  rfl

/-- A connective evaluates its right operand when the left one has the truth value that
    decides nothing. -/
theorem eval_connective (place : List Nat) (b : Bool) (l r : Term (List Nat) Value String KIROp)
    (s : σ) :
    (eval ev.machine (.node place (.connective b) [l, r]) s :
        Run σ Value Stop (List Nat) Value) =
      (eval ev.machine l s).andThen fun v s' =>
        if v.isTrue = b then decided place b s'
        else (eval ev.machine r s').andThen fun w s'' => decided place w.isTrue s'' := by
  have truth (v : Value) : ev.machine.decides (.connective b) v = (v.isTrue == b) := rfl
  simp only [eval, evalOperands, truth]
  generalize eval ev.machine l s = run
  rcases run with ⟨trace, x | v, s'⟩
  · rfl
  · by_cases decides : v.isTrue = b
    · simp [decides, decided, Machine.fire, Evaluator.machine, Event.run]
    · have other : v.isTrue = !b := by
        cases h : v.isTrue <;> cases b <;> simp_all
      simp only [andThen_ok, beq_iff_eq, decides, if_false]
      generalize eval ev.machine r s' = run
      rcases run with ⟨trace', x | w, s''⟩
      · rfl
      · cases h : w.isTrue <;> cases b <;>
          simp_all [decided, Machine.fire, Evaluator.machine, Event.run]

mutual

/-- The language's evaluation is the evaluation in order. -/
theorem evaluate_eq_eval (place : List Nat) (e : KIRTree) (s : σ) :
    evaluate ev place e s = eval ev.machine (e.marked place) s := by
  cases e with
  | int | float | bool | nil | string | enum => simp only [evaluate, KIRTree.marked, eval, known]
  | var type name binding =>
    simp only [evaluate, KIRTree.marked, eval, known, Evaluator.machine]
  | array type items | set type items =>
    rw [evaluate, KIRTree.marked, eval_ordered,
      evaluateAll_eq_eval place 0 (never_ordered ev _) items s]
  | map type entries =>
    rw [evaluate, KIRTree.marked, eval_ordered, evalOperands_cons ev (never_ordered ev _),
      evaluateEntries_eq_eval place 0 (.value (.map [] [])) entries s, eval_value]
    simp only [evalOperands_nil, andThen_assoc, known_andThen]
  | struct type structName fields =>
    rw [evaluate, KIRTree.marked, eval_ordered,
      evaluateFields_eq_eval place 0 (never_ordered ev _) fields s]
  | unary type operator operand =>
    rw [evaluate, evaluate_eq_eval (0 :: place) operand s]
    cases operator with
    | plus =>
      rw [KIRTree.marked]
      generalize eval ev.machine (operand.marked (0 :: place)) s = run
      rcases run with ⟨trace, x | v, s'⟩ <;> simp [known]
    | _ =>
      simp only [KIRTree.marked]
      rw [eval_unordered, evalOperands_cons ev (never_unordered ev _)]
      simp only [evalOperands_nil, andThen_assoc, known_andThen]
  | binary type operator left right =>
    rw [evaluate, evaluate_eq_eval (0 :: place) left s, KIRTree.marked]
    have second := evaluate_eq_eval (1 :: place) right
    cases operator with
    | and =>
      rw [show binaryForm type .and left.type right.type = .connective false from rfl,
        eval_connective]
      congr
      funext v s'
      cases h : v.isTrue <;> simp [second]
    | or =>
      rw [show binaryForm type .or left.type right.type = .connective true from rfl,
        eval_connective]
      congr
      funext v s'
      cases h : v.isTrue <;> simp [second]
    | _ =>
      simp only [binaryForm]
      rw [eval_unordered, evalOperands_cons ev (never_unordered ev _)]
      simp only [evalOperands_cons ev (never_unordered ev _), evalOperands_nil, andThen_assoc,
        known_andThen, second]
  | index type base left =>
    rw [evaluate, evaluate_eq_eval (0 :: place) base s, KIRTree.marked, eval_unordered,
      evalOperands_cons ev (never_unordered ev _)]
    have second := evaluate_eq_eval (1 :: place) left
    simp only [evalOperands_cons ev (never_unordered ev _), evalOperands_nil, andThen_assoc,
      known_andThen, second]
  | field type base name =>
    rw [evaluate, evaluate_eq_eval (0 :: place) base s, KIRTree.marked, eval_unordered,
      evalOperands_cons ev (never_unordered ev _)]
    simp only [evalOperands_nil, andThen_assoc, known_andThen]
  | propagate type operand =>
    rw [evaluate, evaluate_eq_eval (0 :: place) operand s, KIRTree.marked, eval_ordered,
      evalOperands_cons ev (never_ordered ev _)]
    simp only [evalOperands_nil, andThen_assoc, known_andThen]
  | call type call receiver args =>
    cases receiver with
    | none =>
      cases target : call.target with
      | builtin name =>
        simp only [evaluate, KIRTree.marked, target]
        rw [eval_unordered, evaluateAll_eq_eval place 0 (never_unordered ev _) args s]
      | function | trait =>
        simp only [evaluate, KIRTree.marked, target]
        rw [eval_ordered, evalOperands_cons ev (never_ordered ev _), eval_ordered]
        simp only [evaluateAll_eq_eval place 1 (never_ordered ev (.call type call none)) args,
          evalOperands_nil, andThen_assoc, known_andThen]
    | some receiver =>
      have self := evaluate_eq_eval (1 :: place) receiver
      simp only [evaluate, KIRTree.marked]
      rw [eval_ordered, evalOperands_cons ev (never_ordered ev _), eval_ordered]
      simp only [evalOperands_cons ev (never_ordered ev _), self,
        evaluateAll_eq_eval place 2
          (never_ordered ev (.call type call (some receiver.type))) args,
        evalOperands_nil, andThen_assoc, known_andThen]

theorem evaluateAll_eq_eval (place : List Nat) (i : Nat) {form : Form KIROp}
    (never : ∀ v, ev.machine.decides form v = false) (es : List KIRTree) (s : σ) :
    evaluateAll ev place i es s = evalOperands ev.machine form (markedAll place i es) s := by
  cases es with
  | nil => simp only [evaluateAll, markedAll, evalOperands, known]
  | cons e es =>
    rw [evaluateAll, markedAll, evalOperands_cons ev never, evaluate_eq_eval (i :: place) e s]
    simp only [evaluateAll_eq_eval place (i + 1) never es]

theorem evaluateFields_eq_eval (place : List Nat) (i : Nat) {form : Form KIROp}
    (never : ∀ v, ev.machine.decides form v = false) (fields : List (String × KIRTree))
    (s : σ) :
    evaluateFields ev place i fields s =
      evalOperands ev.machine form (markedFields place i fields) s := by
  cases fields with
  | nil => simp only [evaluateFields, markedFields, evalOperands, known]
  | cons field fields =>
    obtain ⟨name, e⟩ := field
    rw [evaluateFields, markedFields, evalOperands_cons ev never,
      evaluate_eq_eval (i :: place) e s]
    simp only [evaluateFields_eq_eval place (i + 1) never fields]

theorem evaluateEntries_eq_eval (place : List Nat) (i : Nat)
    (start : Term (List Nat) Value String KIROp) (entries : List (KIRTree × KIRTree)) (s : σ) :
    eval ev.machine (markedEntries place i start entries) s =
      (eval ev.machine start s).andThen fun built s' =>
        evaluateEntries ev place i built entries s' := by
  cases entries with
  | nil =>
    rw [markedEntries]
    generalize eval ev.machine start s = run
    rcases run with ⟨trace, x | v, s'⟩ <;> simp [evaluateEntries, known]
  | cons entry rest =>
    obtain ⟨key, value⟩ := entry
    have first := evaluate_eq_eval (i :: place) key
    have second := evaluate_eq_eval ((i + 1) :: place) value
    rw [markedEntries, evaluateEntries_eq_eval place (i + 3) _ rest s, eval_ordered]
    simp only [evalOperands_cons ev (never_ordered ev _), evalOperands_nil, andThen_assoc,
      known_andThen, evaluateEntries, first, second]

end

end InOrder

/-! ## Places are distinct -/

/-- Distinct places, each below one of the positions from `lo` up to `hi`. -/
def Spread (place : List Nat) (lo hi : Nat) (places : List (List Nat)) : Prop :=
  places.Nodup ∧ ∀ x ∈ places, ∃ j, lo ≤ j ∧ j < hi ∧ (j :: place) <:+ x

section Places

variable {place : List Nat} {lo mid hi : Nat} {l l' : List (List Nat)}

theorem position_unique {i j : Nat} {x : List Nat} (hi : (i :: place) <:+ x)
    (hj : (j :: place) <:+ x) : i = j := by
  obtain ⟨a, rfl⟩ := hi
  obtain ⟨b, same⟩ := hj
  have len := congrArg List.length same
  simp only [length_append, length_cons] at len
  have tails := (append_inj same (by omega)).2
  simp only [List.cons.injEq, and_true] at tails
  exact tails.symm

theorem not_below_self {j : Nat} : ¬ (j :: place) <:+ place := by
  intro below
  have len := below.length_le
  simp only [length_cons] at len
  omega

theorem spread_nil : Spread place lo hi [] :=
  ⟨nodup_nil, by simp⟩

theorem Spread.append (first : Spread place lo mid l) (second : Spread place mid hi l')
    (le : lo ≤ mid) (le' : mid ≤ hi) : Spread place lo hi (l ++ l') := by
  refine ⟨nodup_append.mpr ⟨first.1, second.1, ?_⟩, ?_⟩
  · intro x hx y hy same
    subst same
    obtain ⟨i, -, below, hi⟩ := first.2 x hx
    obtain ⟨j, above, -, hj⟩ := second.2 x hy
    have := position_unique hi hj
    omega
  · intro x mem
    rcases mem_append.mp mem with hx | hx
    · obtain ⟨j, a, b, c⟩ := first.2 x hx
      exact ⟨j, a, by omega, c⟩
    · obtain ⟨j, a, b, c⟩ := second.2 x hx
      exact ⟨j, by omega, b, c⟩

theorem Spread.cons (spread : Spread place lo hi l) :
    (place :: l).Nodup ∧ ∀ x ∈ place :: l, place <:+ x := by
  refine ⟨nodup_cons.mpr ⟨?_, spread.1⟩, ?_⟩
  · intro mem
    obtain ⟨j, -, -, below⟩ := spread.2 _ mem
    exact not_below_self below
  · intro x mem
    rcases mem_cons.mp mem with rfl | mem
    · exact suffix_refl x
    · obtain ⟨j, -, -, below⟩ := spread.2 _ mem
      exact (suffix_cons j place).trans below

theorem spread_below {i : Nat} (here : l.Nodup ∧ ∀ x ∈ l, (i :: place) <:+ x) :
    Spread place i (i + 1) l := by
  refine ⟨here.1, ?_⟩
  intro x mem
  exact ⟨i, Nat.le_refl i, Nat.lt_succ_self i, here.2 x mem⟩

end Places

mutual

theorem marked_places (place : List Nat) (e : KIRTree) :
    (e.marked place).sites.Nodup ∧ ∀ x ∈ (e.marked place).sites, place <:+ x := by
  cases e with
  | int | float | bool | nil | string | var | enum => simp [KIRTree.marked, Term.sites]
  | array type items =>
    exact (markedAll_places place 0 items).cons
  | set type items =>
    rw [KIRTree.marked, Term.sites]
    exact (markedAll_places place 0 items).cons
  | map type entries =>
    obtain ⟨hi, spread⟩ := markedEntries_places place 0 (.value (.map [] [])) spread_nil entries
    simp only [KIRTree.marked, Term.sites, sitesAll, append_nil]
    exact spread.cons
  | struct type structName fields =>
    exact (markedFields_places place 0 fields).cons
  | unary type operator operand =>
    have inner := marked_places (0 :: place) operand
    cases operator with
    | plus =>
      simp only [KIRTree.marked]
      refine ⟨inner.1, ?_⟩
      intro x mem
      exact (suffix_cons 0 place).trans (inner.2 x mem)
    | _ =>
      simp only [KIRTree.marked, Term.sites, sitesAll, append_nil]
      exact (spread_below inner).cons
  | binary type operator left right | index type left right =>
    have first := spread_below (marked_places (0 :: place) left)
    have second := spread_below (marked_places (1 :: place) right)
    simp only [KIRTree.marked, Term.sites, sitesAll, append_nil]
    exact (first.append second (by omega) (by omega)).cons
  | field type base name | propagate type base =>
    simp only [KIRTree.marked, Term.sites, sitesAll, append_nil]
    exact (spread_below (marked_places (0 :: place) base)).cons
  | call type call receiver args =>
    have entered : Spread place 0 1 [0 :: place] := by
      apply spread_below
      simp
    cases receiver with
    | none =>
      cases target : call.target with
      | builtin name =>
        simp only [KIRTree.marked, target, Term.sites]
        exact (markedAll_places place 0 args).cons
      | function | trait =>
        simp only [KIRTree.marked, target, Term.sites, sitesAll]
        exact (entered.append (markedAll_places place 1 args) (by omega) (by omega)).cons
    | some receiver =>
      have self := spread_below (marked_places (1 :: place) receiver)
      have others := markedAll_places place 2 args
      simp only [KIRTree.marked, Term.sites, sitesAll]
      exact (entered.append (self.append others (by omega) (by omega)) (by omega) (by omega)).cons

theorem markedAll_places (place : List Nat) (i : Nat) (es : List KIRTree) :
    Spread place i (i + es.length) (sitesAll (markedAll place i es)) := by
  cases es with
  | nil =>
    rw [markedAll, sitesAll]
    exact spread_nil
  | cons e es =>
    have others := markedAll_places place (i + 1) es
    rw [markedAll, sitesAll, length_cons]
    rw [show i + 1 + es.length = i + (es.length + 1) by omega] at others
    exact (spread_below (marked_places (i :: place) e)).append others (by omega) (by omega)

theorem markedFields_places (place : List Nat) (i : Nat) (fields : List (String × KIRTree)) :
    Spread place i (i + fields.length) (sitesAll (markedFields place i fields)) := by
  cases fields with
  | nil =>
    exact spread_nil
  | cons field fields =>
    obtain ⟨name, e⟩ := field
    have others := markedFields_places place (i + 1) fields
    rw [markedFields, sitesAll, length_cons]
    rw [show i + 1 + fields.length = i + (fields.length + 1) by omega] at others
    exact (spread_below (marked_places (i :: place) e)).append others (by omega) (by omega)

theorem markedEntries_places (place : List Nat) (i : Nat)
    (start : Term (List Nat) Value String KIROp) (before : Spread place 0 i start.sites)
    (entries : List (KIRTree × KIRTree)) :
    ∃ hi, Spread place 0 hi (markedEntries place i start entries).sites := by
  cases entries with
  | nil =>
    rw [markedEntries]
    exact ⟨i, before⟩
  | cons entry rest =>
    obtain ⟨key, value⟩ := entry
    rw [markedEntries]
    apply markedEntries_places
    have first := spread_below (marked_places (i :: place) key)
    have second := spread_below (marked_places ((i + 1) :: place) value)
    have inside := before.append (first.append second (by omega) (by omega)) (by omega) (by omega)
    -- the entry itself comes first in the list, but at the last of its positions
    have own : Spread place (i + 1 + 1) (i + 3) [(i + 2) :: place] := by
      apply spread_below
      simp
    have all := inside.append own (by omega) (by omega)
    simp only [Term.sites, sitesAll, append_nil]
    refine ⟨(perm_append_singleton _ _).nodup_iff.mp all.1, ?_⟩
    intro x mem
    apply all.2
    rcases mem_cons.mp mem with rfl | mem
    · simp
    · exact mem_append_left _ mem

end

/-! ## Agreement -/

/-- `K_MAX_ARGS`, the number of arguments that the frame of a call holds. -/
def kMaxArgs : Nat := 64

/-- Is it a call of an emitted function? -/
def COp.isCall : COp → Bool
  | .call _ => true
  | _ => false

/-- Is it a call of a function of the program? -/
def KIROp.isCall : KIROp → Bool
  | .call _ _ _ => true
  | _ => false

/-- Every frame holds the arguments of its call; their stores stay inside the frame. The
    check of the depth is one more operand. -/
def CExpr.FramesHold (c : CExpr) : Prop :=
  c.Within COp.isCall (kMaxArgs + 1)

/-- No call has more arguments, its receiver included, than a frame holds. -/
def KIRTree.FewArguments (e : KIRTree) : Prop :=
  (e.marked []).Within KIROp.isCall (kMaxArgs + 1)

/-- For the operations of an expression, the routines do what the executor does. -/
def Runtime.Implements {σ : Type} (rt : Runtime σ) (g : Cgen) (e : KIRTree) : Prop :=
  (e.marked []).AllOps fun op => rt.language.perform op = rt.execute (g.lower op)

/-- The evaluation is not left by `?`. -/
def Stays {σ : Type} (r : Run σ Value Stop (List Nat) Value) : Prop :=
  Good (fun x => ∃ v, x = .returned v) r

/-- The emitted expression has a meaning, and in every order that C permits it does what the
    language says, event by event; as long as no `?` leaves it, this is what the executor
    does, whatever `?` has left before. -/
def KeepsOrder {σ : Type} (rt : Runtime σ) (c : CExpr) (e : KIRTree) (s : σ) : Prop :=
  c.FramesHold ∧ ∀ trace r, Runs rt.cMachine c s trace r →
    (trace, r) = evaluate rt.language [] e s ∧
      (Stays (trace, r) → ∀ before : Option Value,
        Run.mapState (fun s => (s, before)) (trace, r) = evaluate rt.executor [] e (s, before))

section Agreement

variable {σ : Type} (rt : Runtime σ) {g : Cgen} {e : KIRTree} {c : CExpr}

theorem isCall_structLiteral (type structName : String) (fields : List String) :
    ((g.structLiteral type structName fields).getD .array).isCall = false := by
  cases found : g.structLiteral type structName fields with
  | none => rfl
  | some op =>
    simp only [Cgen.structLiteral, bind_eq_bind, bind_eq_some_iff] at found
    obtain ⟨decl, -, instanceDecl, -, found⟩ := found
    split at found
    · cases found
    · simp only [bind_eq_some_iff, Option.some.injEq] at found
      obtain ⟨id, -, indices, -, rfl⟩ := found
      rfl

theorem isCall_field (base name : String) : ((g.field base name).getD .array).isCall = false := by
  cases found : g.field base name with
  | none => rfl
  | some op =>
    simp only [Cgen.field, bind_eq_bind, bind_eq_some_iff,
      Option.some.injEq] at found
    obtain ⟨decl, -, index, -, rfl⟩ := found
    rfl

theorem isCall_binary (type : String) (operator : BinaryOp) (left right : String) :
    ((Cgen.binary type operator left right).getD .array).isCall = false := by
  cases operator <;> simp only [Cgen.binary, getD_some, getD_none] <;>
    first | rfl | (split <;> rfl)

theorem isCall_builtinCall (name : String) (arity : Nat) (worker : Option String) :
    ((g.builtinCall name arity worker).getD .array).isCall = false := by
  cases found : g.builtinCall name arity worker with
  | none => rfl
  | some op =>
    unfold Cgen.builtinCall at found
    split_ifs at found
    · cases found
      rfl
    · cases found
      rfl
    · obtain ⟨symbol, -, rfl⟩ := map_eq_some_iff.mp found
      rfl
    · obtain ⟨symbol, -, rfl⟩ := map_eq_some_iff.mp found
      rfl
    · cases found
      rfl
    · obtain ⟨entry, -, rfl⟩ := map_eq_some_iff.mp found
      rfl

theorem isCall_lower (op : KIROp) : (g.lower op).isCall = op.isCall := by
  cases op with
  | struct type structName fields => exact isCall_structLiteral type structName fields
  | unary type operator => cases operator <;> rfl
  | binary type operator left right => exact isCall_binary type operator left right
  | field type base name => exact isCall_field base name
  | builtin type name arity worker => exact isCall_builtinCall name arity worker
  | call type call receiver =>
    simp only [Cgen.lower]
    cases found : g.functionCall call receiver with
    | none => rfl
    | some op =>
      simp only [Cgen.functionCall, bind_eq_bind, bind_eq_some_iff,
        Option.some.injEq] at found
      obtain ⟨f, -, symbol, -, rfl⟩ := found
      rfl
  | _ => rfl

theorem framesHold_iff (accepted : g.expr [] e = some c) : c.FramesHold ↔ e.FewArguments := by
  rw [expr_eq_rename accepted, CExpr.FramesHold, KIRTree.FewArguments, within_rename]
  simp only [isCall_lower]

theorem executor_follows (before : Option Value) :
    Operands.Follows rt.language.machine rt.executor.machine (fun s => (s, before))
      (fun x => ∃ v, x = .returned v) where
  read s := rfl
  truth := rfl
  bool := rfl
  apply op vs s good := by
    cases op with
    | propagate =>
      have stays (v : Value) := good (.returned v) ⟨v, rfl⟩
      simp only [Evaluator.machine, Runtime.language, Runtime.executor] at stays ⊢
    | _ => rfl

theorem executor_evaluates (place : List Nat) (e : KIRTree) (s : σ) (before : Option Value)
    (stays : Stays (evaluate rt.language place e s)) :
    evaluate rt.executor place e (s, before) =
      (evaluate rt.language place e s).mapState fun s => (s, before) := by
  rw [evaluate_eq_eval] at stays ⊢
  rw [evaluate_eq_eval]
  exact eval_follows (executor_follows rt before) (e.marked place) s stays

/-- The emitted C keeps the order of the language exactly when its frames hold the arguments
    of their calls and the expression is settled. -/
theorem keepsOrder_iff (accepted : g.expr [] e = some c) (implements : rt.Implements g e)
    (s : σ) :
    KeepsOrder rt c e s ↔
      e.FewArguments ∧ Operands.Settled rt.language.machine (e.marked []) s := by
  have alike : Alike rt.language.machine (rt.cMachine.through g.lower) := ⟨rfl, rfl, rfl⟩
  have inOrder : evaluate rt.language [] e s =
      eval (rt.cMachine.through g.lower) (e.marked []) s := by
    rw [evaluate_eq_eval, eval_congr alike (e.marked []) implements]
  rw [KeepsOrder, framesHold_iff accepted, settled_congr alike (e.marked []) implements,
    ← agrees_iff_settled _ _ (marked_places [] e).1]
  refine and_congr_right fun _ => ?_
  constructor
  · intro keeps trace r runs
    rw [← inOrder]
    apply (keeps trace r _).1
    rw [expr_eq_rename accepted]
    exact runs_rename_iff.mpr runs
  · intro agrees trace r runs
    rw [expr_eq_rename accepted] at runs
    have same : (trace, r) = evaluate rt.language [] e s := by
      rw [inOrder]
      exact agrees trace r (runs_rename_iff.mp runs)
    refine ⟨same, ?_⟩
    intro stays before
    rw [same] at stays ⊢
    exact (executor_evaluates rt [] e s before stays).symm

end Agreement

/-! ## A function that counts its calls -/

/-- The state counts calls of functions; each call yields `true`. -/
def countingRuntime : Runtime Nat where
  read _ _ := .nil
  full _ := false
  operation
    | .call _ _ _, _, n => (.ok (.bool true), n + 1)
    | _, _, n => (.ok .nil, n)
  routine
    | .call _, _, n => (.ok (.bool true), n + 1)
    | _, _, n => (.ok .nil, n)

/-- A generator that knows one function. -/
def noisyCgen : Cgen where
  functionByTarget target := if target == "noisy" then some 0 else none
  functionSymbolForCall _ _ _ := some "kfn_noisy"

/-- `noisy()`. -/
def noisyCall : KIRTree :=
  .call "Bool" { name := "noisy", target := .function "noisy" } none []

/-- `false && noisy()`. -/
def decidedCall : KIRTree :=
  .binary "Bool" .and (.bool "Bool" false) noisyCall

/-- `k_and(kv_bool(0), ({ …; kfn_noisy(); }))`. -/
def decidedCallC : CExpr :=
  .node [] (.connective false)
    [.value (.bool false),
      .node [1] (.ordered (.call "kfn_noisy")) [.node [0, 1] (.ordered .enter) []]]

theorem decidedCall_accepted : noisyCgen.expr [] decidedCall = some decidedCallC := by
  rfl

theorem decidedCall_implemented : countingRuntime.Implements noisyCgen decidedCall := by
  refine ⟨trivial, trivial, ⟨?_, ⟨rfl, trivial⟩, trivial⟩, trivial⟩
  rfl

theorem decidedCall_runs : Runs countingRuntime.cMachine decidedCallC 0
    [⟨[0, 1], [], .ok .nil, 0⟩, ⟨[1], [.nil], .ok (.bool true), 1⟩, ⟨[], [], .ok (.bool false), 1⟩]
    (.ok (.bool false), 1) := by
  -- the depth is checked, the function is called, and k_and is applied
  have enter := Operands.Step.fire (m := countingRuntime.cMachine) [0, 1] (.ordered .enter) [] 0
  have call := Operands.Step.fire (m := countingRuntime.cMachine) [1] (.ordered (.call "kfn_noisy"))
    [.nil] 0
  have and := Operands.Step.fire (m := countingRuntime.cMachine) ([] : List Nat) (.connective false)
    [.bool false, .bool true] 1
  have first : Operands.Step countingRuntime.cMachine
      (.node [1] (.ordered (.call "kfn_noisy")) [.node [0, 1] (.ordered .enter) []]) 0
      [⟨[0, 1], [], .ok .nil, 0⟩]
      (.ok (.node [1] (.ordered (.call "kfn_noisy")) [.value .nil]), 0) :=
    .operand (i := 0) rfl (fun _ j hj => absurd hj (Nat.not_lt_zero j)) enter
  have turn {i : Nat} {cs : List CExpr} : Turn (.connective false) cs i :=
    turn_of_unordered rfl
  exact .next (.operand (i := 1) rfl turn first)
    (.next (.operand (i := 1) rfl turn call) (.next and (.done _ _)))

/-- The call happens although `false` has decided. -/
theorem decidedCall_not_kept : noisyCgen.expr [] decidedCall = some decidedCallC ∧
    countingRuntime.Implements noisyCgen decidedCall ∧
    ¬ KeepsOrder countingRuntime decidedCallC decidedCall 0 := by
  refine ⟨decidedCall_accepted, decidedCall_implemented, ?_⟩
  intro keeps
  have same := (keeps.2 _ _ decidedCall_runs).1
  have lengths := congrArg (fun run => run.1.length) same
  exact absurd lengths (by decide)

/-- `!noisy()`. -/
def negatedCall : KIRTree :=
  .unary "Bool" .bang noisyCall

/-- `k_not(({ …; kfn_noisy(); }))`. -/
def negatedCallC : CExpr :=
  .node [] (.unordered (.routine "k_not" []))
    [.node [0] (.ordered (.call "kfn_noisy")) [.node [0, 0] (.ordered .enter) []]]

/-- A call that is the only operand keeps its place. -/
theorem negatedCall_kept : KeepsOrder countingRuntime negatedCallC negatedCall 0 := by
  have implements : countingRuntime.Implements noisyCgen negatedCall :=
    ⟨rfl, ⟨rfl, ⟨rfl, trivial⟩, trivial⟩, trivial⟩
  have few : negatedCall.FewArguments := by
    refine ⟨?_, ⟨?_, ⟨?_, trivial⟩, trivial⟩, trivial⟩
    · intro isCall
      cases isCall
    · intro _
      decide
    · intro isCall
      cases isCall
  refine (keepsOrder_iff countingRuntime (g := noisyCgen) rfl implements 0).mpr ⟨few, ?_⟩
  have inner : Operands.Settled countingRuntime.language.machine (noisyCall.marked [0]) 0 := by
    simp [noisyCall, KIRTree.marked, markedAll, Operands.Settled, Form.isOrdered, SettledInOrder]
  have alone : (noisyCall.marked [0]).isLeaf = false := by rfl
  simp only [negatedCall, KIRTree.marked, Operands.Settled, Form.isOrdered, SettledAmong, alone,
    Bool.false_eq_true, if_false]
  refine ⟨inner, rfl, by simp, ?_⟩
  intro trace v s' _ us ws hu hw
  cases hu
  cases hw
  rfl

end Kryndel
