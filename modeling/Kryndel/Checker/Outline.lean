import Kryndel.Lexical.Skeleton
import Kryndel.Checker.Scope

/-!
# Programs as skeletons

The scoping skeleton of the syntax tree: every reference in reachable code, the
blocks and closures around it and the declarations between. Marks are what the
checker recorded on the reference, so one function reads both the tree before
checking and the tree after it, and erasing the marks gives back the program text.
-/

namespace Kryndel

open Lexical List

/-- A declaration, as far as scoping is concerned. -/
structure Decl where
  token : Token
  isGlobal : Bool := false
deriving DecidableEq, Repr, Inhabited

/-- What the checker recorded on a reference. -/
structure Mark where
  scope : Option ScopeRef
  definition : Option Token
  isFunction : Bool
  typed : Bool
deriving DecidableEq, Repr, Inhabited

/-- A skeleton with the checker's records. -/
abbrev Sketch := Skel String Decl Mark (List Capture)

/-- A statement's skeleton with the checker's records. -/
abbrev SketchItem := Item String Decl Mark (List Capture)

/-- The program text of a skeleton. -/
abbrev Outline := Skel String Decl Unit Unit

/-- The blocks around a point of a program. -/
abbrev Blocks := Chain String Decl

/-! ## Reachability -/

mutual

/-- Can control reach the end of a statement? Loops, deferred and unsafe blocks count
    as reaching it whatever they contain. -/
def Stmt.falls : Stmt → Bool
  | .returnStmt _ _ | .breakStmt _ | .continueStmt _ => false
  | .ifStmt _ _ thenBody elseBody =>
      blockFalls thenBody || elseBody.isEmpty || blockFalls elseBody
  | .matchStmt _ _ arms => anyArmFalls arms
  | _ => true

/-- Can control reach the end of a block? -/
def blockFalls : List Stmt → Bool
  | [] => true
  | s :: rest => s.falls && blockFalls rest

/-- Can control reach the end of one of the arms? -/
def anyArmFalls : List MatchArm → Bool
  | [] => false
  | .mk _ body :: rest => blockFalls body || anyArmFalls rest

end

/-! ## Skeletons of trees -/

/-- The record on a variable node. -/
def Resolution.mark (info : ExprInfo) (ref : Resolution) : Mark where
  scope := ref.scope
  definition := ref.definition
  isFunction := ref.function.isSome
  typed := info.type.isSome

/-- The names a pattern binds. -/
def Pattern.decls (p : Pattern) : List (String × Decl) :=
  if p.binding != "" then [(p.binding, { token := p.bindingTok })] else []

/-- Parameters, declared one after another. -/
def paramDecls (before : List (String × Decl)) (params : List ParamSig) : List (String × Decl) :=
  params.foldl (fun now p => (p.name, { token := p.tok }) :: now) before

/-- The target of an assignment: a variable is written there, not read. -/
def asTarget : Sketch → Sketch
  | .use name m => .assign name m
  | s => s

mutual

/-- The skeleton of an expression. -/
def Expr.skel : Expr → Sketch
  | .var i name ref => .use name (ref.mark i)
  | .unary i _ operand => .node i.type.isSome [operand.skel]
  | .binary i _ left right => .node i.type.isSome [left.skel, right.skel]
  | .call i callee args ref => .call i.type.isSome ref.function.isSome callee.skel (exprSkels args)
  | .method i receiver _ args _ => .node i.type.isSome (receiver.skel :: exprSkels args)
  | .array i items | .set i items => .node i.type.isSome (exprSkels items)
  | .index i base left => .node i.type.isSome [base.skel, left.skel]
  | .field i base _ _ => .node i.type.isSome [base.skel]
  | .struct i _ _ values _ => .node i.type.isSome (exprSkels values)
  | .map i keys values => .node i.type.isSome (exprSkels keys ++ exprSkels values)
  | .propagate i operand => .node i.type.isSome [operand.skel]
  | .lambda i sig body captures =>
      .closure i.type.isSome captures (paramDecls [] sig.params) (stmtItems body)
  | .int i _ | .float i _ | .bool i _ | .nil i | .string i _ | .enum i _ _ _ =>
      .node i.type.isSome []

/-- The skeletons of some expressions. -/
def exprSkels : List Expr → List Sketch
  | [] => []
  | e :: es => e.skel :: exprSkels es

/-- The skeleton of a statement, with what it declares. -/
def Stmt.item : Stmt → SketchItem
  | .letStmt info init => .mk init.skel (some (info.name, { token := info.nameToken }))
  | .exprStmt _ e => .mk e.skel none
  | .assign _ target value => .mk (.node false [asTarget target.skel, value.skel]) none
  | .ifStmt _ cond thenBody elseBody =>
      .mk (.node false [cond.skel, .block [] (stmtItems thenBody), .block [] (stmtItems elseBody)])
        none
  | .whileStmt _ cond body => .mk (.node false [cond.skel, .block [] (stmtItems body)]) none
  | .forStmt info iter body =>
      .mk (.node false
        [iter.skel, .block [(info.name, { token := info.nameToken })] (stmtItems body)]) none
  | .returnStmt _ none | .breakStmt _ | .continueStmt _ => .mk (.node false []) none
  | .returnStmt _ (some e) => .mk e.skel none
  | .deferStmt _ body | .unsafeStmt _ body => .mk (.block [] (stmtItems body)) none
  | .matchStmt _ scrutinee arms => .mk (.node false (scrutinee.skel :: armSkels arms)) none

/-- The skeletons of the reachable statements of a block. -/
def stmtItems : List Stmt → List SketchItem
  | [] => []
  | s :: rest => s.item :: if s.falls then stmtItems rest else []

/-- The skeletons of the arms of a match. -/
def armSkels : List MatchArm → List Sketch
  | [] => []
  | .mk p body :: rest => .block p.decls (stmtItems body) :: armSkels rest

end

attribute [local simp] exprSkels Expr.skel in
@[simp] theorem exprSkels_eq_map (es : List Expr) : exprSkels es = es.map Expr.skel := by
  induction es with
  | nil => rfl
  | cons e es ih => simp [exprSkels, ih]

/-! ## Code that is not reached -/

mutual

/-- The statements in an expression's closures that control cannot reach. -/
def Expr.dead : Expr → List Stmt
  | .unary _ _ operand | .propagate _ operand => operand.dead
  | .binary _ _ left right => left.dead ++ right.dead
  | .call _ callee args _ => callee.dead ++ exprsDead args
  | .method _ receiver _ args _ => receiver.dead ++ exprsDead args
  | .array _ items | .set _ items => exprsDead items
  | .index _ base left => base.dead ++ left.dead
  | .field _ base _ _ => base.dead
  | .struct _ _ _ values _ => exprsDead values
  | .map _ keys values => exprsDead keys ++ exprsDead values
  | .lambda _ _ body _ => stmtsDead body
  | .int _ _ | .float _ _ | .bool _ _ | .nil _ | .string _ _ | .var _ _ _ | .enum _ _ _ _ => []

/-- The statements in the closures of some expressions that control cannot reach. -/
def exprsDead : List Expr → List Stmt
  | [] => []
  | e :: es => e.dead ++ exprsDead es

/-- The statements inside a statement that control cannot reach. -/
def Stmt.dead : Stmt → List Stmt
  | .letStmt _ init => init.dead
  | .exprStmt _ e => e.dead
  | .assign _ target value => target.dead ++ value.dead
  | .ifStmt _ cond thenBody elseBody => cond.dead ++ stmtsDead thenBody ++ stmtsDead elseBody
  | .whileStmt _ cond body => cond.dead ++ stmtsDead body
  | .forStmt _ iter body => iter.dead ++ stmtsDead body
  | .returnStmt _ none | .breakStmt _ | .continueStmt _ => []
  | .returnStmt _ (some e) => e.dead
  | .deferStmt _ body | .unsafeStmt _ body => stmtsDead body
  | .matchStmt _ scrutinee arms => scrutinee.dead ++ armsDead arms

/-- The statements of a block that control cannot reach. -/
def stmtsDead : List Stmt → List Stmt
  | [] => []
  | s :: rest => s.dead ++ if s.falls then stmtsDead rest else rest

/-- The statements in the arms of a match that control cannot reach. -/
def armsDead : List MatchArm → List Stmt
  | [] => []
  | .mk _ body :: rest => stmtsDead body ++ armsDead rest

end

attribute [local simp] exprsDead Expr.dead in
@[simp] theorem exprsDead_eq_flatMap (es : List Expr) : exprsDead es = es.flatMap Expr.dead := by
  induction es with
  | nil => rfl
  | cons e es ih => simp [exprsDead, ih]

/-! ## Skeletons by subexpressions -/

/-- The node of an expression over the skeletons of its subexpressions. -/
def Expr.wrap (e : Expr) (done direct : Bool) (parts : List Sketch) : Sketch :=
  match e with
  | .call _ callee _ _ => .call done direct (parts.headD callee.skel) parts.tail
  | _ => .node done parts

/-- Variables and closures are the expressions whose skeleton is not a node over
    their subexpressions. -/
def Expr.isCompound : Expr → Bool
  | .var _ _ _ | .lambda _ _ _ _ => false
  | _ => true

attribute [local simp] Expr.type Expr.info Expr.children Expr.resolution in
theorem Expr.skel_eq_wrap (e : Expr) (h : e.isCompound = true) :
    e.skel = e.wrap e.type.isSome e.resolution.function.isSome (e.children.map Expr.skel) := by
  cases e <;>
    simp_all [Expr.isCompound, Expr.skel, Expr.wrap, Expr.type, Expr.info, Expr.children,
      Expr.resolution]

theorem Expr.dead_eq (e : Expr) (h : e.isCompound = true) :
    e.dead = e.children.flatMap Expr.dead := by
  cases e <;> simp_all [Expr.isCompound, Expr.dead, Expr.children]

/-- A node with other subexpressions, resolution and common fields. -/
def Expr.rebuild (e : Expr) (children : List Expr) (ref : Resolution) (i : ExprInfo) : Expr :=
  ((e.withChildren children).withResolution ref).withInfo i

attribute [local simp] Expr.withInfo in
@[simp] theorem Expr.info_withInfo (e : Expr) (i : ExprInfo) : (e.withInfo i).info = i := by
  cases e <;> rfl

@[simp] theorem Expr.withInfo_withInfo (e : Expr) (i j : ExprInfo) :
    (e.withInfo i).withInfo j = e.withInfo j := by
  cases e <;> rfl

@[simp] theorem Expr.withInfo_info (e : Expr) : e.withInfo e.info = e := by
  cases e <;> rfl

@[simp] theorem Expr.info_withResolution (e : Expr) (ref : Resolution) :
    (e.withResolution ref).info = e.info := by
  cases e <;> rfl

@[simp] theorem Expr.info_withChildren (e : Expr) (children : List Expr) :
    (e.withChildren children).info = e.info := by
  cases e <;> rfl

theorem list_one {α : Type} {xs : List α} (h : xs.length = 1) : ∃ a, xs = [a] :=
  length_eq_one_iff.mp h

theorem list_two {α : Type} {xs : List α} (h : xs.length = 2) : ∃ a b, xs = [a, b] :=
  length_eq_two.mp h

theorem Expr.rebuild_skel (e : Expr) (h : e.isCompound = true) {children : List Expr}
    (same : children.length = e.children.length) (ref : Resolution) (i : ExprInfo) :
    (e.rebuild children ref i).skel =
      e.wrap i.type.isSome ref.function.isSome (children.map Expr.skel) := by
  cases e with
  | var | lambda => cases h
  | unary | propagate | field =>
    obtain ⟨a, rfl⟩ := list_one same
    rfl
  | binary | index =>
    obtain ⟨a, b, rfl⟩ := list_two same
    rfl
  | call | method =>
    obtain ⟨c, cs, rfl⟩ := exists_cons_of_length_eq_add_one same
    simp [rebuild, withChildren, withResolution, withInfo, skel, wrap]
  | map j keys values =>
    simp only [rebuild, withChildren, withResolution, withInfo, skel, wrap, exprSkels_eq_map]
    rw [← map_append, take_append_drop]
  | int | float | bool | nil | string | enum =>
    obtain rfl : children = [] := length_eq_zero_iff.mp same
    rfl
  | array | set | struct =>
    simp [rebuild, withChildren, withResolution, withInfo, skel, wrap]

theorem Expr.rebuild_dead (e : Expr) (h : e.isCompound = true) {children : List Expr}
    (same : children.length = e.children.length) (ref : Resolution) (i : ExprInfo) :
    (e.rebuild children ref i).dead = children.flatMap Expr.dead := by
  cases e with
  | var | lambda => cases h
  | unary | propagate | field =>
    obtain ⟨a, rfl⟩ := list_one same
    simp [rebuild, withChildren, withResolution, withInfo, dead]
  | binary | index =>
    obtain ⟨a, b, rfl⟩ := list_two same
    simp [rebuild, withChildren, withResolution, withInfo, dead]
  | call | method =>
    obtain ⟨c, cs, rfl⟩ := exists_cons_of_length_eq_add_one same
    simp [rebuild, withChildren, withResolution, withInfo, dead]
  | map j keys values =>
    simp only [rebuild, withChildren, withResolution, withInfo, dead, exprsDead_eq_flatMap]
    rw [← flatMap_append, take_append_drop]
  | int | float | bool | nil | string | enum =>
    obtain rfl : children = [] := length_eq_zero_iff.mp same
    rfl
  | array | set | struct =>
    simp [rebuild, withChildren, withResolution, withInfo, dead]

section Wrap

variable {e : Expr} {done direct : Bool} {parts : List Sketch}

theorem Expr.wrap_cases (e : Expr) (done direct : Bool) {parts : List Sketch}
    (same : parts.length = e.children.length) :
    e.wrap done direct parts = .node done parts ∨
      ∃ i c as ref callee args, e = .call i c as ref ∧ parts = callee :: args ∧
        e.wrap done direct parts = .call done direct callee args := by
  cases e with
  | call i c as ref =>
    obtain ⟨callee, args, rfl⟩ := exists_cons_of_length_eq_add_one same
    exact Or.inr ⟨i, c, as, ref, callee, args, rfl, rfl, rfl⟩
  | _ => exact Or.inl rfl

theorem Expr.everywhere_wrap {R : Blocks → Sketch → Prop} {c : Blocks}
    (same : parts.length = e.children.length) :
    Everywhere R c (e.wrap done direct parts) ↔
      R c (e.wrap done direct parts) ∧ ∀ p ∈ parts, Everywhere R c p := by
  rcases e.wrap_cases done direct same with eq | ⟨i, x, as, ref, callee, args, -, rfl, eq⟩
  · rw [eq, everywhere_node]
  · rw [eq, everywhere_call]
    simp

theorem Expr.wrap_erase {done' direct' : Bool} {parts' : List Sketch}
    (same : parts.length = e.children.length)
    (outlines : parts'.map Skel.erase = parts.map Skel.erase) :
    (e.wrap done' direct' parts').erase = (e.wrap done direct parts).erase := by
  have lengths : parts'.length = parts.length := by
    simpa using congrArg List.length outlines
  cases e with
  | call i c as ref =>
    obtain ⟨callee, args, rfl⟩ := exists_cons_of_length_eq_add_one same
    obtain ⟨callee', args', rfl⟩ := exists_cons_of_length_eq_add_one (lengths.trans same)
    simp only [map_cons, List.cons.injEq] at outlines
    simp [wrap, Skel.erase, eraseList_eq_map, outlines.1, outlines.2]
  | _ => simp [wrap, Skel.erase, eraseList_eq_map, outlines]

end Wrap

end Kryndel
