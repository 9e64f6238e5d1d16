import Kryndel.Checker.Records

/-!
# The nodes of a program

The expression nodes of a tree in the order the arena builder visits them, code that
control cannot reach included, and trees as the parser leaves them, with no record
of the checker on any node.

A call of a known function or of a builtin has no callee in the arena. The nodes of
such a callee are listed as not live.
-/

namespace Kryndel

open Lexical List

/-! ## Trees without records -/

/-- Common fields as the parser leaves them. -/
def ExprInfo.unchecked (i : ExprInfo) : Bool := i.type.isNone && i.constValue.isNone

/-- A resolution as the parser leaves it. -/
def Resolution.unchecked (ref : Resolution) : Bool :=
  ref.scope.isNone && ref.definition.isNone && ref.function.isNone &&
    ref.genericArguments.isEmpty && ref.traitName == "" && ref.variantDefinition.isNone && !ref.tail

mutual

/-- No node of an expression has a record. -/
def Expr.unchecked : Expr → Bool
  | .int i _ | .float i _ | .bool i _ | .nil i | .string i _ => i.unchecked
  | .var i _ ref | .enum i _ _ ref => i.unchecked && ref.unchecked
  | .unary i _ operand | .propagate i operand => i.unchecked && operand.unchecked
  | .binary i _ left right | .index i left right =>
      i.unchecked && left.unchecked && right.unchecked
  | .call i callee args ref | .method i callee _ args ref =>
      i.unchecked && ref.unchecked && callee.unchecked && exprsUnchecked args
  | .array i items | .set i items => i.unchecked && exprsUnchecked items
  | .field i base _ ref => i.unchecked && ref.unchecked && base.unchecked
  | .struct i _ _ values ref => i.unchecked && ref.unchecked && exprsUnchecked values
  | .map i keys values => i.unchecked && exprsUnchecked keys && exprsUnchecked values
  | .lambda i _ body captures => i.unchecked && captures.isEmpty && stmtsUnchecked body

/-- No node of some expressions has a record. -/
def exprsUnchecked : List Expr → Bool
  | [] => true
  | e :: es => e.unchecked && exprsUnchecked es

/-- No node of a statement has a record. -/
def Stmt.unchecked : Stmt → Bool
  | .letStmt _ init => init.unchecked
  | .exprStmt _ e => e.unchecked
  | .assign _ target value => target.unchecked && value.unchecked
  | .ifStmt _ cond thenBody elseBody =>
      cond.unchecked && stmtsUnchecked thenBody && stmtsUnchecked elseBody
  | .whileStmt _ cond body => cond.unchecked && stmtsUnchecked body
  | .forStmt _ iter body => iter.unchecked && stmtsUnchecked body
  | .returnStmt _ none | .breakStmt _ | .continueStmt _ => true
  | .returnStmt _ (some e) => e.unchecked
  | .deferStmt _ body | .unsafeStmt _ body => stmtsUnchecked body
  | .matchStmt _ scrutinee arms => scrutinee.unchecked && armsUnchecked arms

/-- No node of some statements has a record. -/
def stmtsUnchecked : List Stmt → Bool
  | [] => true
  | s :: rest => s.unchecked && stmtsUnchecked rest

/-- No node in the arms of a match has a record. -/
def armsUnchecked : List MatchArm → Bool
  | [] => true
  | .mk _ body :: rest => stmtsUnchecked body && armsUnchecked rest

end

theorem stmtsUnchecked_iff {body : List Stmt} :
    stmtsUnchecked body = true ↔ ∀ s ∈ body, s.unchecked = true := by
  induction body with
  | nil => simp [stmtsUnchecked]
  | cons s rest ih => simp [stmtsUnchecked, ih]

/-- A parameter's default, if there is one, has no record. -/
def Param.unchecked (p : Param) : Bool := p.default.all Expr.unchecked

/-- No node of a function has a record. -/
def Function.unchecked (f : Function) : Bool :=
  f.params.all Param.unchecked && stmtsUnchecked f.body

/-- A program as the parser leaves it. -/
def Program.unchecked (p : Program) : Bool :=
  p.functions.all Function.unchecked && stmtsUnchecked p.statements

/-! ## Skeletons without records -/

/-- A part without records. -/
def Unmarked (_ : Blocks) : Sketch → Prop
  | .use _ m | .assign _ m => m.definition = none ∧ m.isFunction = false ∧ m.typed = false
  | .node done _ => done = false
  | .call done direct _ _ => done = false ∧ direct = false
  | .block _ _ => True
  | .closure done captured _ _ => done = false ∧ captured = []

variable {i : ExprInfo}

theorem ExprInfo.unchecked_type (h : i.unchecked = true) : i.type = none := by
  simp only [unchecked, Bool.and_eq_true, Option.isNone_iff_eq_none] at h
  exact h.1

variable {ref : Resolution}

theorem Resolution.unchecked_definition (h : ref.unchecked = true) :
    ref.definition = none := by
  simp only [unchecked, Bool.and_eq_true, Option.isNone_iff_eq_none] at h
  exact h.1.1.1.1.1.2

theorem Resolution.unchecked_function (h : ref.unchecked = true) :
    ref.function = none := by
  simp only [unchecked, Bool.and_eq_true, Option.isNone_iff_eq_none] at h
  exact h.1.1.1.1.2

theorem Resolution.unchecked_mark (h : i.unchecked = true) (bare : ref.unchecked = true) :
    (ref.mark i).definition = none ∧ (ref.mark i).isFunction = false ∧
      (ref.mark i).typed = false := by
  simp [mark, unchecked_definition bare, unchecked_function bare, ExprInfo.unchecked_type h]

variable {s : Sketch} {c : Blocks}

theorem everywhere_asTarget (h : Everywhere Unmarked c s) :
    Everywhere Unmarked c (asTarget s) := by
  cases s with
  | use name m => exact everywhere_assign.mpr (everywhere_use.mp h)
  | _ => exact h

mutual

theorem Expr.unmarked (e : Expr) (h : e.unchecked = true) (c : Blocks) :
    Everywhere Unmarked c e.skel := by
  cases e with simp only [Expr.unchecked, Bool.and_eq_true] at h
  | var i name ref =>
    exact everywhere_use.mpr (Resolution.unchecked_mark h.1 h.2)
  | int i v | float i v | bool i v | nil i | string i v =>
    simp [Expr.skel, Unmarked, ExprInfo.unchecked_type h]
  | enum i t v ref =>
    simp [Expr.skel, Unmarked, ExprInfo.unchecked_type h.1]
  | unary i op operand | propagate i operand =>
    simp [Expr.skel, Unmarked, ExprInfo.unchecked_type h.1, operand.unmarked h.2]
  | field i base name ref =>
    simp [Expr.skel, Unmarked, ExprInfo.unchecked_type h.1.1, base.unmarked h.2]
  | binary i op left right | index i left right =>
    simp [Expr.skel, Unmarked, ExprInfo.unchecked_type h.1.1, left.unmarked h.1.2,
      right.unmarked h.2]
  | call i callee args ref =>
    refine everywhere_call.mpr ⟨?_, callee.unmarked h.1.2 c, exprsUnmarked args h.2 c⟩
    simp [Unmarked, ExprInfo.unchecked_type h.1.1.1, Resolution.unchecked_function h.1.1.2]
  | method i receiver name args ref =>
    refine everywhere_node.mpr ⟨by simp [Unmarked, ExprInfo.unchecked_type h.1.1.1], ?_⟩
    simp only [mem_cons, forall_eq_or_imp]
    exact ⟨receiver.unmarked h.1.2 c, exprsUnmarked args h.2 c⟩
  | array i items | set i items =>
    exact everywhere_node.mpr
      ⟨by simp [Unmarked, ExprInfo.unchecked_type h.1], exprsUnmarked items h.2 c⟩
  | struct i spec fields values ref =>
    exact everywhere_node.mpr
      ⟨by simp [Unmarked, ExprInfo.unchecked_type h.1.1], exprsUnmarked values h.2 c⟩
  | map i keys values =>
    refine everywhere_node.mpr ⟨by simp [Unmarked, ExprInfo.unchecked_type h.1.1], ?_⟩
    simp only [mem_append]
    rintro p (mem | mem)
    · exact exprsUnmarked keys h.1.2 c p mem
    · exact exprsUnmarked values h.2 c p mem
  | lambda i sig body captures =>
    refine everywhere_closure.mpr ⟨?_, stmtsUnmarked body h.2 _ _ _ _⟩
    simpa [Unmarked, ExprInfo.unchecked_type h.1.1] using h.1.2

theorem exprsUnmarked (es : List Expr) (h : exprsUnchecked es = true) (c : Blocks) :
    ∀ s ∈ exprSkels es, Everywhere Unmarked c s := by
  cases es with
  | nil => simp [exprSkels]
  | cons e es =>
    simp only [exprsUnchecked, Bool.and_eq_true] at h
    simp only [exprSkels, mem_cons, forall_eq_or_imp]
    exact ⟨e.unmarked h.1 c, exprsUnmarked es h.2 c⟩

theorem Stmt.unmarked (s : Stmt) (h : s.unchecked = true) (c : Blocks) :
    Everywhere Unmarked c s.item.part := by
  cases s with
  | letStmt info init => exact init.unmarked h c
  | exprStmt tok e => exact e.unmarked h c
  | assign tok target value =>
    simp only [Stmt.unchecked, Bool.and_eq_true] at h
    simp [Stmt.item, Item.part, Unmarked, everywhere_asTarget (target.unmarked h.1 c),
      value.unmarked h.2 c]
  | ifStmt tok cond thenBody elseBody =>
    simp only [Stmt.unchecked, Bool.and_eq_true] at h
    simp [Stmt.item, Item.part, Unmarked, cond.unmarked h.1.1 c, stmtsUnmarked thenBody h.1.2,
      stmtsUnmarked elseBody h.2]
  | whileStmt tok cond body | forStmt info cond body =>
    simp only [Stmt.unchecked, Bool.and_eq_true] at h
    simp [Stmt.item, Item.part, Unmarked, cond.unmarked h.1 c, stmtsUnmarked body h.2]
  | returnStmt tok value =>
    cases value with
    | none => simp [Stmt.item, Item.part, Unmarked]
    | some e => exact e.unmarked h c
  | breakStmt tok | continueStmt tok => simp [Stmt.item, Item.part, Unmarked]
  | deferStmt tok body | unsafeStmt tok body =>
    simp [Stmt.item, Item.part, Unmarked, stmtsUnmarked body h]
  | matchStmt tok scrutinee arms =>
    simp only [Stmt.unchecked, Bool.and_eq_true] at h
    refine everywhere_node.mpr ⟨rfl, ?_⟩
    simp only [mem_cons, forall_eq_or_imp]
    exact ⟨scrutinee.unmarked h.1 c, armsUnmarked arms h.2 c⟩

theorem stmtsUnmarked (body : List Stmt) (h : stmtsUnchecked body = true) (c : Blocks)
    (fin : List (String × Decl)) (level : Nat) (now : List (String × Decl)) :
    EverywhereItems Unmarked c fin level now (stmtItems body) := by
  cases body with
  | nil => exact everywhereItems_nil
  | cons s rest =>
    simp only [stmtsUnchecked, Bool.and_eq_true] at h
    refine everywhereItems_cons.mpr ⟨s.unmarked h.1 _, ?_⟩
    cases s.falls with
    | true => exact stmtsUnmarked rest h.2 c fin level _
    | false => exact everywhereItems_nil

theorem armsUnmarked (arms : List MatchArm) (h : armsUnchecked arms = true) (c : Blocks) :
    ∀ s ∈ armSkels arms, Everywhere Unmarked c s := by
  match arms with
  | [] => simp [armSkels]
  | .mk p body :: rest =>
    simp only [armsUnchecked, Bool.and_eq_true] at h
    simp only [armSkels, mem_cons, forall_eq_or_imp]
    exact ⟨everywhere_block.mpr ⟨trivial, stmtsUnmarked body h.1 _ _ _ _⟩,
      armsUnmarked rest h.2 c⟩

end

/-! ## All nodes -/

section Nodes

variable (isBuiltin : String → Bool)

/-- Does the arena leave out the callee of a call? It does if the call has a target. -/
def omitsCallee (callee : Expr) (ref : Resolution) : Bool :=
  ref.function.isSome || isBuiltin callee.calleeName

mutual

/-- The nodes under an expression. -/
def Expr.under (live : Bool) : Expr → List (Bool × Expr)
  | .int _ _ | .float _ _ | .bool _ _ | .nil _ | .string _ _ | .var _ _ _ | .enum _ _ _ _ => []
  | .unary _ _ operand | .propagate _ operand => (live, operand) :: operand.under live
  | .binary _ _ left right | .index _ right left =>
      (live, left) :: (left.under live ++ (live, right) :: right.under live)
  | .call _ callee args ref =>
      (live && !omitsCallee isBuiltin callee ref, callee) ::
        (callee.under (live && !omitsCallee isBuiltin callee ref) ++ exprsNodes live args)
  | .method _ receiver _ args _ =>
      (live, receiver) :: (receiver.under live ++ exprsNodes live args)
  | .array _ items | .set _ items => exprsNodes live items
  | .field _ base _ _ => (live, base) :: base.under live
  | .struct _ _ _ values _ => exprsNodes live values
  | .map _ keys values => exprsNodes live keys ++ exprsNodes live values
  | .lambda _ _ body _ => stmtsNodes live body

/-- The nodes of some expressions. -/
def exprsNodes (live : Bool) : List Expr → List (Bool × Expr)
  | [] => []
  | e :: es => (live, e) :: (e.under live ++ exprsNodes live es)

/-- The nodes of a statement. -/
def Stmt.nodes (live : Bool) : Stmt → List (Bool × Expr)
  | .letStmt _ init => (live, init) :: init.under live
  | .exprStmt _ e => (live, e) :: e.under live
  | .assign _ target value =>
      (live, target) :: (target.under live ++ (live, value) :: value.under live)
  | .ifStmt _ cond thenBody elseBody =>
      (live, cond) :: (cond.under live ++ stmtsNodes live thenBody ++ stmtsNodes live elseBody)
  | .whileStmt _ cond body => (live, cond) :: (cond.under live ++ stmtsNodes live body)
  | .forStmt _ iter body => (live, iter) :: (iter.under live ++ stmtsNodes live body)
  | .returnStmt _ none | .breakStmt _ | .continueStmt _ => []
  | .returnStmt _ (some e) => (live, e) :: e.under live
  | .deferStmt _ body | .unsafeStmt _ body => stmtsNodes live body
  | .matchStmt _ scrutinee arms =>
      (live, scrutinee) :: (scrutinee.under live ++ armsNodes live arms)

/-- The nodes of some statements. -/
def stmtsNodes (live : Bool) : List Stmt → List (Bool × Expr)
  | [] => []
  | s :: rest => s.nodes live ++ stmtsNodes live rest

/-- The nodes in the arms of a match. -/
def armsNodes (live : Bool) : List MatchArm → List (Bool × Expr)
  | [] => []
  | .mk _ body :: rest => stmtsNodes live body ++ armsNodes live rest

end

/-- The nodes of an expression. -/
def Expr.nodes (live : Bool) (e : Expr) : List (Bool × Expr) :=
  (live, e) :: e.under isBuiltin live

/-- The nodes of a parameter's default. -/
def Param.nodes (p : Param) : List (Bool × Expr) :=
  match p.default with
  | some e => e.nodes isBuiltin true
  | none => []

/-- The nodes of a function. -/
def Function.nodes (f : Function) : List (Bool × Expr) :=
  f.params.flatMap (·.nodes isBuiltin) ++ stmtsNodes isBuiltin true f.body

/-- The nodes of a program. -/
def Program.nodes (p : Program) : List (Bool × Expr) :=
  p.functions.flatMap (·.nodes isBuiltin) ++ stmtsNodes isBuiltin true p.statements

end Nodes

/-! ## References among the nodes -/

/-- `P` holds of a node if that is a reference. -/
def MarkOf (P : Bool → String → Mark → Prop) : Bool × Expr → Prop
  | (live, .var i name ref) => P live name (ref.mark i)
  | _ => True

/-- `P` holds of every reference without a declaration. -/
def Lenient (P : Bool → String → Mark → Prop) : Prop :=
  ∀ live name m, m.definition = none → P live name m

/-- `P` holds of a part if that is a reference, or a call without a callee. -/
def PartMark (isBuiltin : String → Bool) (P : Bool → String → Mark → Prop) (_ : Blocks) :
    Sketch → Prop
  | .use name m | .assign name m => P true name m
  | .call _ direct (.use name m) _ => (direct || isBuiltin name) = true → P false name m
  | _ => True

/-- Direct calls have variables as callees. -/
def DirectNames (_ : Blocks) : Sketch → Prop
  | .call _ direct callee _ => direct = true → ∃ name m, callee = .use name m
  | _ => True

section References

variable {isBuiltin : String → Bool} {P : Bool → String → Mark → Prop}

theorem markOf_unchecked (blank : Lenient P) (live : Bool) {e : Expr} (h : e.unchecked = true) :
    MarkOf P (live, e) := by
  cases e with
  | var i name ref =>
    simp only [Expr.unchecked, Bool.and_eq_true] at h
    exact blank live name _ (Resolution.unchecked_mark h.1 h.2).1
  | _ => trivial

mutual

theorem Expr.under_unchecked (live : Bool) (e : Expr) (h : e.unchecked = true) :
    ∀ x ∈ e.under isBuiltin live, x.2.unchecked = true := by
  cases e with simp only [Expr.unchecked, Bool.and_eq_true] at h
  | int | float | bool | nil | string | var | enum => simp [Expr.under]
  | unary i op operand | propagate i operand | field i operand name ref =>
    simp only [Expr.under, forall_mem_cons]
    exact ⟨h.2, operand.under_unchecked live h.2⟩
  | binary i op left right =>
    simp only [Expr.under, forall_mem_cons, forall_mem_append]
    exact ⟨h.1.2, left.under_unchecked live h.1.2, h.2, right.under_unchecked live h.2⟩
  | index i base left =>
    simp only [Expr.under, forall_mem_cons, forall_mem_append]
    exact ⟨h.2, left.under_unchecked live h.2, h.1.2, base.under_unchecked live h.1.2⟩
  | call i callee args ref =>
    simp only [Expr.under, forall_mem_cons, forall_mem_append]
    exact ⟨h.1.2, callee.under_unchecked _ h.1.2, exprsNodes_unchecked live args h.2⟩
  | method i receiver name args ref =>
    simp only [Expr.under, forall_mem_cons, forall_mem_append]
    exact ⟨h.1.2, receiver.under_unchecked live h.1.2, exprsNodes_unchecked live args h.2⟩
  | array i items | set i items | struct i spec fields items ref =>
    exact exprsNodes_unchecked live items h.2
  | map i keys values =>
    simp only [Expr.under, forall_mem_append]
    exact ⟨exprsNodes_unchecked live keys h.1.2, exprsNodes_unchecked live values h.2⟩
  | lambda i sig body captures => exact stmtsNodes_unchecked live body h.2

theorem exprsNodes_unchecked (live : Bool) (es : List Expr) (h : exprsUnchecked es = true) :
    ∀ x ∈ exprsNodes isBuiltin live es, x.2.unchecked = true := by
  cases es with
  | nil => simp [exprsNodes]
  | cons e es =>
    simp only [exprsUnchecked, Bool.and_eq_true] at h
    simp only [exprsNodes, forall_mem_cons, forall_mem_append]
    exact ⟨h.1, e.under_unchecked live h.1, exprsNodes_unchecked live es h.2⟩

theorem Stmt.nodes_unchecked (live : Bool) (s : Stmt) (h : s.unchecked = true) :
    ∀ x ∈ s.nodes isBuiltin live, x.2.unchecked = true := by
  cases s with
  | letStmt info init | exprStmt tok init =>
    simp only [Stmt.nodes, forall_mem_cons]
    exact ⟨h, init.under_unchecked live h⟩
  | assign tok target value =>
    simp only [Stmt.unchecked, Bool.and_eq_true] at h
    simp only [Stmt.nodes, forall_mem_cons, forall_mem_append]
    exact ⟨h.1, target.under_unchecked live h.1, h.2, value.under_unchecked live h.2⟩
  | ifStmt tok cond thenBody elseBody =>
    simp only [Stmt.unchecked, Bool.and_eq_true] at h
    simp only [Stmt.nodes, forall_mem_cons, forall_mem_append]
    exact ⟨h.1.1, ⟨cond.under_unchecked live h.1.1, stmtsNodes_unchecked live thenBody h.1.2⟩,
      stmtsNodes_unchecked live elseBody h.2⟩
  | whileStmt tok cond body | forStmt info cond body =>
    simp only [Stmt.unchecked, Bool.and_eq_true] at h
    simp only [Stmt.nodes, forall_mem_cons, forall_mem_append]
    exact ⟨h.1, cond.under_unchecked live h.1, stmtsNodes_unchecked live body h.2⟩
  | returnStmt tok value =>
    cases value with
    | none => simp [Stmt.nodes]
    | some e =>
      simp only [Stmt.nodes, forall_mem_cons]
      exact ⟨h, e.under_unchecked live h⟩
  | breakStmt tok | continueStmt tok => simp [Stmt.nodes]
  | deferStmt tok body | unsafeStmt tok body => exact stmtsNodes_unchecked live body h
  | matchStmt tok scrutinee arms =>
    simp only [Stmt.unchecked, Bool.and_eq_true] at h
    simp only [Stmt.nodes, forall_mem_cons, forall_mem_append]
    exact ⟨h.1, scrutinee.under_unchecked live h.1, armsNodes_unchecked live arms h.2⟩

theorem stmtsNodes_unchecked (live : Bool) (body : List Stmt) (h : stmtsUnchecked body = true) :
    ∀ x ∈ stmtsNodes isBuiltin live body, x.2.unchecked = true := by
  cases body with
  | nil => simp [stmtsNodes]
  | cons s rest =>
    simp only [stmtsUnchecked, Bool.and_eq_true] at h
    simp only [stmtsNodes, forall_mem_append]
    exact ⟨s.nodes_unchecked live h.1, stmtsNodes_unchecked live rest h.2⟩

theorem armsNodes_unchecked (live : Bool) (arms : List MatchArm) (h : armsUnchecked arms = true) :
    ∀ x ∈ armsNodes isBuiltin live arms, x.2.unchecked = true := by
  match arms with
  | [] => simp [armsNodes]
  | .mk p body :: rest =>
    simp only [armsUnchecked, Bool.and_eq_true] at h
    simp only [armsNodes, forall_mem_append]
    exact ⟨stmtsNodes_unchecked live body h.1, armsNodes_unchecked live rest h.2⟩

end

/-! ## Nodes and parts -/

/-- What a property of references has to be to read it off the skeleton. -/
structure ReadsOff (isBuiltin : String → Bool) (P : Bool → String → Mark → Prop) : Prop where
  lenient : Lenient P
  mono : ∀ name m, P false name m → P true name m
  named : isBuiltin "" = false

theorem everywhere_asTarget_iff :
    Everywhere (PartMark isBuiltin P) c (asTarget s) ↔ Everywhere (PartMark isBuiltin P) c s := by
  cases s with
  | use name m => simp [asTarget, PartMark]
  | _ => rfl

theorem everywhere_asTarget_direct :
    Everywhere DirectNames c (asTarget s) ↔ Everywhere DirectNames c s := by
  cases s with
  | use name m => simp [asTarget, DirectNames]
  | _ => rfl

theorem omitted_callee (rule : ReadsOff isBuiltin P) {callee : Expr} {args : List Expr}
    (direct : Everywhere DirectNames c (Expr.call i callee args ref).skel)
    (omits : omitsCallee isBuiltin callee ref = true) : ∃ j name r, callee = .var j name r := by
  simp only [omitsCallee, Bool.or_eq_true] at omits
  rcases omits with known | builtin
  · obtain ⟨name, m, skel⟩ := (everywhere_call.mp direct).1 known
    cases callee with
    | var j name r => exact ⟨j, name, r, rfl⟩
    | _ => simp [Expr.skel] at skel
  · cases callee with
    | var j name r => exact ⟨j, name, r, rfl⟩
    | _ => simp [Expr.calleeName, rule.named] at builtin

theorem partMark_call {done direct : Bool} {callee : Sketch} {args : List Sketch}
    (h : ∀ name m, callee = .use name m → (direct || isBuiltin name) = true → P false name m) :
    PartMark isBuiltin P c (.call done direct callee args) := by
  cases callee with
  | use name m => exact h name m rfl
  | _ => trivial

mutual

/-- The nodes of an expression and the parts of its skeleton, if code that is not
    reached has no records. -/
theorem Expr.nodes_iff (rule : ReadsOff isBuiltin P) (e : Expr) (c : Blocks)
    (dead : ∀ s ∈ e.dead, s.unchecked = true) (direct : Everywhere DirectNames c e.skel) :
    (MarkOf P (true, e) ∧ ∀ x ∈ e.under isBuiltin true, MarkOf P x) ↔
      Everywhere (PartMark isBuiltin P) c e.skel := by
  cases e with
  | var | int | float | bool | nil | string | enum =>
    simp [Expr.under, Expr.skel, MarkOf, PartMark]
  | unary i op operand | propagate i operand | field i operand name ref =>
    have ih := operand.nodes_iff rule c dead ((everywhere_node.mp direct).2 _ (by simp))
    simp [Expr.under, Expr.skel, MarkOf, PartMark, ← ih]
  | binary i op left right =>
    simp only [Expr.dead, forall_mem_append] at dead
    have first := left.nodes_iff rule c dead.1 ((everywhere_node.mp direct).2 _ (by simp))
    have second := right.nodes_iff rule c dead.2 ((everywhere_node.mp direct).2 _ (by simp))
    simp only [Expr.under, Expr.skel, forall_mem_cons, forall_mem_append]
    simp [MarkOf, PartMark, ← first, ← second, and_assoc]
  | index i base left =>
    simp only [Expr.dead, forall_mem_append] at dead
    have first := left.nodes_iff rule c dead.2 ((everywhere_node.mp direct).2 _ (by simp))
    have second := base.nodes_iff rule c dead.1 ((everywhere_node.mp direct).2 _ (by simp))
    simp only [Expr.under, Expr.skel, forall_mem_cons, forall_mem_append]
    simp only [everywhere_node, forall_mem_cons, ← first, ← second]
    simp only [MarkOf, PartMark, true_and, not_mem_nil, false_implies, implies_true, and_true]
    exact ⟨fun h => ⟨h.2.2, h.1, h.2.1⟩, fun h => ⟨h.2.1, h.2.2, h.1⟩⟩
  | call i callee args ref =>
    have below := everywhere_call.mp direct
    simp only [Expr.dead, forall_mem_append] at dead
    have rest := exprsNodes_iff rule args c dead.2 below.2.2
    simp only [Expr.under, forall_mem_cons, forall_mem_append, rest]
    rw [Expr.skel, everywhere_call]
    cases omits : omitsCallee isBuiltin callee ref with
    | true =>
      -- the callee is not live, and it is one variable
      obtain ⟨j, name, r, rfl⟩ := omitted_callee rule direct omits
      have omits' : (ref.function.isSome || isBuiltin name) = true := omits
      simp only [Expr.under, Expr.skel, everywhere_use, MarkOf, PartMark, omits', true_implies]
      simp only [Bool.not_true, Bool.and_false, not_mem_nil, false_implies, implies_true,
        true_and]
      exact ⟨fun h => ⟨h.1, rule.mono _ _ h.1, h.2⟩, fun h => ⟨h.1, h.2.2⟩⟩
    | false =>
      have first := callee.nodes_iff rule c dead.1 below.2.1
      have here : PartMark isBuiltin P c
          (.call i.type.isSome ref.function.isSome callee.skel (exprSkels args)) := by
        refine partMark_call fun name m skel known => ?_
        cases callee with
        | var j name' r =>
          obtain ⟨rfl, -⟩ := skel
          exact absurd (known.symm.trans omits) (by simp)
        | _ => simp [Expr.skel] at skel
      rw [← first]
      exact ⟨fun h => ⟨here, ⟨h.2.1, h.2.2.1⟩, h.2.2.2⟩,
        fun h => ⟨trivial, h.2.1.1, h.2.1.2, h.2.2⟩⟩
  | method i receiver name args ref =>
    have below := (everywhere_node.mp direct).2
    simp only [Expr.dead, forall_mem_append] at dead
    simp only [forall_mem_cons] at below
    have first := receiver.nodes_iff rule c dead.1 below.1
    have rest := exprsNodes_iff rule args c dead.2 below.2
    simp only [Expr.under, forall_mem_cons, forall_mem_append, rest]
    simp only [Expr.skel, everywhere_node, forall_mem_cons, ← first]
    simp [MarkOf, PartMark, and_assoc]
  | array i items | set i items | struct i spec fields items ref =>
    have rest := exprsNodes_iff rule items c dead (everywhere_node.mp direct).2
    simp only [Expr.under, rest]
    simp only [Expr.skel, everywhere_node]
    simp [MarkOf, PartMark]
  | map i keys values =>
    have below := (everywhere_node.mp direct).2
    simp only [Expr.dead, forall_mem_append] at dead
    simp only [forall_mem_append] at below
    have first := exprsNodes_iff rule keys c dead.1 below.1
    have second := exprsNodes_iff rule values c dead.2 below.2
    simp only [Expr.under, forall_mem_append, first, second]
    simp only [Expr.skel, everywhere_node, forall_mem_append]
    simp [MarkOf, PartMark]
  | lambda i sig body captures =>
    have rest := stmtsNodes_iff rule body c (declared (paramDecls [] sig.params) (stmtItems body))
      (c.level + 1) (paramDecls [] sig.params) dead (everywhere_closure.mp direct).2
    simp only [Expr.under, rest]
    simp only [Expr.skel, everywhere_closure]
    simp [MarkOf, PartMark]

theorem exprsNodes_iff (rule : ReadsOff isBuiltin P) (es : List Expr) (c : Blocks)
    (dead : ∀ s ∈ exprsDead es, s.unchecked = true)
    (direct : ∀ s ∈ exprSkels es, Everywhere DirectNames c s) :
    (∀ x ∈ exprsNodes isBuiltin true es, MarkOf P x) ↔
      ∀ s ∈ exprSkels es, Everywhere (PartMark isBuiltin P) c s := by
  cases es with
  | nil => simp [exprsNodes, exprSkels]
  | cons e es =>
    simp only [exprsDead, forall_mem_append] at dead
    simp only [exprSkels, forall_mem_cons] at direct
    have first := e.nodes_iff rule c dead.1 direct.1
    have rest := exprsNodes_iff rule es c dead.2 direct.2
    simp only [exprsNodes, exprSkels, forall_mem_cons, forall_mem_append, rest, ← first,
      and_assoc]

theorem Stmt.nodes_iff (rule : ReadsOff isBuiltin P) (s : Stmt) (c : Blocks)
    (dead : ∀ t ∈ s.dead, t.unchecked = true) (direct : Everywhere DirectNames c s.item.part) :
    (∀ x ∈ s.nodes isBuiltin true, MarkOf P x) ↔
      Everywhere (PartMark isBuiltin P) c s.item.part := by
  cases s with
  | letStmt info init | exprStmt tok init =>
    exact forall_mem_cons.trans (init.nodes_iff rule c dead direct)
  | assign tok target value =>
    have below := (everywhere_node.mp direct).2
    simp only [Stmt.dead, forall_mem_append] at dead
    simp only [forall_mem_cons] at below
    have first := target.nodes_iff rule c dead.1 (everywhere_asTarget_direct.mp below.1)
    have second := value.nodes_iff rule c dead.2 below.2.1
    simp only [Stmt.nodes, Stmt.item, Item.part, forall_mem_cons, forall_mem_append]
    simp only [everywhere_node, forall_mem_cons, everywhere_asTarget_iff, ← first, ← second]
    simp [PartMark, and_assoc]
  | ifStmt tok cond thenBody elseBody =>
    have below := (everywhere_node.mp direct).2
    simp only [Stmt.dead, forall_mem_append] at dead
    simp only [forall_mem_cons] at below
    have first := cond.nodes_iff rule c dead.1.1 below.1
    have second := stmtsNodes_iff rule thenBody c (declared [] (stmtItems thenBody)) c.level []
      dead.1.2 (everywhere_block.mp below.2.1).2
    have third := stmtsNodes_iff rule elseBody c (declared [] (stmtItems elseBody)) c.level []
      dead.2 (everywhere_block.mp below.2.2.1).2
    simp only [Stmt.nodes, Stmt.item, Item.part, forall_mem_cons, forall_mem_append]
    simp only [everywhere_node, everywhere_block, forall_mem_cons, ← first, second, third]
    simp [PartMark, and_assoc]
  | whileStmt tok cond body =>
    have below := (everywhere_node.mp direct).2
    simp only [Stmt.dead, forall_mem_append] at dead
    simp only [forall_mem_cons] at below
    have first := cond.nodes_iff rule c dead.1 below.1
    have second := stmtsNodes_iff rule body c (declared [] (stmtItems body)) c.level []
      dead.2 (everywhere_block.mp below.2.1).2
    simp only [Stmt.nodes, Stmt.item, Item.part, forall_mem_cons, forall_mem_append]
    simp only [everywhere_node, everywhere_block, forall_mem_cons, ← first, second]
    simp [PartMark, and_assoc]
  | forStmt info iter body =>
    have below := (everywhere_node.mp direct).2
    simp only [Stmt.dead, forall_mem_append] at dead
    simp only [forall_mem_cons] at below
    have first := iter.nodes_iff rule c dead.1 below.1
    have second := stmtsNodes_iff rule body c _ c.level _ dead.2 (everywhere_block.mp below.2.1).2
    simp only [Stmt.nodes, Stmt.item, Item.part, forall_mem_cons, forall_mem_append]
    simp only [everywhere_node, everywhere_block, forall_mem_cons, ← first, second]
    simp [PartMark, and_assoc]
  | returnStmt tok value =>
    cases value with
    | none => simp [Stmt.nodes, Stmt.item, Item.part, PartMark]
    | some e => exact forall_mem_cons.trans (e.nodes_iff rule c dead direct)
  | breakStmt tok | continueStmt tok => simp [Stmt.nodes, Stmt.item, Item.part, PartMark]
  | deferStmt tok body | unsafeStmt tok body =>
    have rest := stmtsNodes_iff rule body c (declared [] (stmtItems body)) c.level [] dead
      (everywhere_block.mp direct).2
    simp only [Stmt.nodes, Stmt.item, Item.part, everywhere_block, rest]
    simp [PartMark]
  | matchStmt tok scrutinee arms =>
    have below := (everywhere_node.mp direct).2
    simp only [Stmt.dead, forall_mem_append] at dead
    simp only [forall_mem_cons] at below
    have first := scrutinee.nodes_iff rule c dead.1 below.1
    have rest := armsNodes_iff rule arms c dead.2 below.2
    simp only [Stmt.nodes, Stmt.item, Item.part, forall_mem_cons, forall_mem_append]
    simp only [everywhere_node, forall_mem_cons, ← first, rest]
    simp [PartMark, and_assoc]

theorem stmtsNodes_iff (rule : ReadsOff isBuiltin P) (body : List Stmt) (c : Blocks)
    (fin : List (String × Decl)) (level : Nat) (now : List (String × Decl))
    (dead : ∀ s ∈ stmtsDead body, s.unchecked = true)
    (direct : EverywhereItems DirectNames c fin level now (stmtItems body)) :
    (∀ x ∈ stmtsNodes isBuiltin true body, MarkOf P x) ↔
      EverywhereItems (PartMark isBuiltin P) c fin level now (stmtItems body) := by
  cases body with
  | nil => simp [stmtsNodes, stmtItems]
  | cons s rest =>
    simp only [stmtsDead, forall_mem_append] at dead
    have below := everywhereItems_cons.mp direct
    have first := s.nodes_iff rule _ dead.1 below.1
    simp only [stmtsNodes, stmtItems, forall_mem_append, everywhereItems_cons, first]
    cases falls : s.falls with
    | true =>
      simp only [falls, if_true] at dead below ⊢
      have later := stmtsNodes_iff rule rest c fin level _ dead.2 below.2
      exact and_congr_right fun _ => later
    | false =>
      -- control does not reach the rest, and the rest has no records
      simp only [falls, Bool.false_eq_true, if_false] at dead ⊢
      have rest' := @stmtsNodes_unchecked isBuiltin true rest (stmtsUnchecked_iff.mpr dead.2)
      exact and_congr_right fun _ => ⟨fun _ => everywhereItems_nil,
        fun _ x mem => markOf_unchecked rule.lenient x.1 (rest' x mem)⟩

theorem armsNodes_iff (rule : ReadsOff isBuiltin P) (arms : List MatchArm) (c : Blocks)
    (dead : ∀ s ∈ armsDead arms, s.unchecked = true)
    (direct : ∀ s ∈ armSkels arms, Everywhere DirectNames c s) :
    (∀ x ∈ armsNodes isBuiltin true arms, MarkOf P x) ↔
      ∀ s ∈ armSkels arms, Everywhere (PartMark isBuiltin P) c s := by
  match arms with
  | [] => simp [armsNodes, armSkels]
  | .mk p body :: rest =>
    simp only [armsDead, forall_mem_append] at dead
    simp only [armSkels, forall_mem_cons] at direct
    have first := stmtsNodes_iff rule body c _ c.level _ dead.1 (everywhere_block.mp direct.1).2
    have later := armsNodes_iff rule rest c dead.2 direct.2
    simp only [armsNodes, armSkels, forall_mem_cons, forall_mem_append, everywhere_block]
    rw [first, later]
    simp [PartMark]

end

end References

end Kryndel
