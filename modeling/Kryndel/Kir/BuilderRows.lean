import Mathlib.Data.List.Forall2
import Kryndel.Kir.Builder

/-!
# The rows of the arena

What the walk of the builder does to the table of expressions: it puts down one row for
each node that has one, in the order of the nodes, and the binding of a row is what the
builder found for its node.
-/

namespace Kryndel

open List

/-! ## Nodes with rows -/

/-- The nodes that have rows. -/
def liveNodes (nodes : List (Bool × Expr)) : List Expr := (nodes.filter (·.1)).map (·.2)

@[simp] theorem liveNodes_nil : liveNodes [] = [] := rfl

@[simp] theorem liveNodes_cons_true (e : Expr) (nodes : List (Bool × Expr)) :
    liveNodes ((true, e) :: nodes) = e :: liveNodes nodes := rfl

@[simp] theorem liveNodes_cons_false (e : Expr) (nodes : List (Bool × Expr)) :
    liveNodes ((false, e) :: nodes) = liveNodes nodes := rfl

@[simp] theorem liveNodes_append (nodes nodes' : List (Bool × Expr)) :
    liveNodes (nodes ++ nodes') = liveNodes nodes ++ liveNodes nodes' := by
  simp [liveNodes]

section Live

variable (isBuiltin : String → Bool)

mutual

theorem Expr.under_false (e : Expr) : liveNodes (e.under isBuiltin false) = [] := by
  cases e with
  | int | float | bool | nil | string | var | enum => simp [Expr.under]
  | unary i op operand | propagate i operand | field i operand name ref =>
    simp [Expr.under, operand.under_false]
  | binary i op left right | index i right left =>
    simp [Expr.under, left.under_false, right.under_false]
  | call i callee args ref | method i callee name args ref =>
    simp [Expr.under, callee.under_false, exprsNodes_false args]
  | array i items | set i items | struct i spec fields items ref =>
    simp [Expr.under, exprsNodes_false items]
  | map i keys values => simp [Expr.under, exprsNodes_false keys, exprsNodes_false values]
  | lambda i sig body captures => simp [Expr.under, stmtsNodes_false body]

theorem exprsNodes_false (es : List Expr) : liveNodes (exprsNodes isBuiltin false es) = [] := by
  cases es with
  | nil => simp [exprsNodes]
  | cons e es => simp [exprsNodes, e.under_false, exprsNodes_false es]

theorem Stmt.nodes_false (s : Stmt) : liveNodes (s.nodes isBuiltin false) = [] := by
  cases s with
  | letStmt info init | exprStmt tok init => simp [Stmt.nodes, init.under_false]
  | assign tok target value => simp [Stmt.nodes, target.under_false, value.under_false]
  | ifStmt tok cond thenBody elseBody =>
    simp [Stmt.nodes, cond.under_false, stmtsNodes_false thenBody, stmtsNodes_false elseBody]
  | whileStmt tok cond body | forStmt info cond body =>
    simp [Stmt.nodes, cond.under_false, stmtsNodes_false body]
  | returnStmt tok value =>
    cases value with
    | none => simp [Stmt.nodes]
    | some e => simp [Stmt.nodes, e.under_false]
  | breakStmt tok | continueStmt tok => simp [Stmt.nodes]
  | deferStmt tok body | unsafeStmt tok body => simp [Stmt.nodes, stmtsNodes_false body]
  | matchStmt tok scrutinee arms =>
    simp [Stmt.nodes, scrutinee.under_false, armsNodes_false arms]

theorem stmtsNodes_false (body : List Stmt) : liveNodes (stmtsNodes isBuiltin false body) = [] := by
  cases body with
  | nil => simp [stmtsNodes]
  | cons s rest => simp [stmtsNodes, s.nodes_false, stmtsNodes_false rest]

theorem armsNodes_false (arms : List MatchArm) :
    liveNodes (armsNodes isBuiltin false arms) = [] := by
  match arms with
  | [] => simp [armsNodes]
  | .mk p body :: rest => simp [armsNodes, stmtsNodes_false body, armsNodes_false rest]

end

end Live

/-! ## Parts of the arena -/

/-- An optional position names a record, if there is one to name. -/
def Names (bindings : List KIRBinding) (ref : MIRRef) : Option KIRBinding → Prop
  | none => ref = none
  | some b => ∃ i, ref = some i ∧ bindings[i]? = some b

variable {bindings' bindings : List KIRBinding}

theorem Names.mono {ref : MIRRef} {b : Option KIRBinding} (grown : bindings <+: bindings')
    (h : Names bindings ref b) : Names bindings' ref b := by
  cases b with
  | none => exact h
  | some b =>
    obtain ⟨i, rfl, found⟩ := h
    obtain ⟨more, rfl⟩ := grown
    obtain ⟨bound, -⟩ := List.getElem?_eq_some_iff.mp found
    exact ⟨i, rfl, by rw [getElem?_append_left bound, found]⟩

theorem Names.bindingAt {ref : MIRRef} {b : Option KIRBinding} (h : Names bindings ref b) :
    bindingAt bindings ref = b := by
  cases b with
  | none => rw [show ref = none from h]; rfl
  | some b =>
    obtain ⟨i, rfl, found⟩ := h
    exact found

section Rows

variable (builder : ArenaBuilder)

/-- A node's row has its scalars, and the binding that the builder found for it. -/
structure RowOf (bindings : List KIRBinding) (e : Expr) (row : MIRExpression) : Prop where
  value : row.value = kirExprScalars builder e
  binding : Names bindings row.binding (lookedUp builder e)

/-- Between two arenas the rows of some nodes were put down. -/
structure Built (a a' : KIRArena) (nodes : List Expr) : Prop where
  bindings : a.bindings <+: a'.bindings
  rows : ∃ rows, a'.expressions = a.expressions ++ rows ∧
    List.Forall₂ (RowOf builder a'.bindings) nodes rows

/-- A computation puts down the rows of some nodes. -/
def Builds {α : Type} (m : BuildM α) (nodes : List Expr) : Prop :=
  ∀ a, Built builder a (m a).2 nodes

/-- A computation puts down the rows under a node and leaves what the node's row refers
    to. -/
def BuildsEdges (e : Expr) (m : BuildM MIRExpression) (nodes : List Expr) : Prop :=
  ∀ a, Built builder a (m a).2 nodes ∧
    Names (m a).2.bindings (m a).1.binding (lookedUp builder e)

variable {builder} {α β : Type} {m : BuildM α} {f : α → BuildM β} {a b c : KIRArena}
  {nodes nodes' : List Expr}

theorem RowOf.mono (grown : bindings <+: bindings') (e : Expr) (row : MIRExpression)
    (h : RowOf builder bindings e row) :
    RowOf builder bindings' e row :=
  ⟨h.value, h.binding.mono grown⟩

theorem Built.nothing (same : b.expressions = a.expressions) (grown : a.bindings <+: b.bindings) :
    Built builder a b [] :=
  ⟨grown, [], by simpa using same, .nil⟩

theorem Built.trans (ab : Built builder a b nodes) (bc : Built builder b c nodes') :
    Built builder a c (nodes ++ nodes') := by
  obtain ⟨rows, eq, forall₂⟩ := ab.rows
  obtain ⟨rows', eq', forall₂'⟩ := bc.rows
  refine ⟨ab.bindings.trans bc.bindings, rows ++ rows', by simp [eq', eq], ?_⟩
  exact rel_append (forall₂.imp fun e row h => h.mono bc.bindings e row) forall₂'

theorem Builds.pure (x : α) : Builds builder (pure x : BuildM α) [] :=
  fun a => .nothing rfl (prefix_refl a.bindings)

theorem Builds.bind (first : Builds builder m nodes) (rest : ∀ x, Builds builder (f x) nodes') :
    Builds builder (m >>= f) (nodes ++ nodes') :=
  fun a => (first a).trans (rest (m a).1 (m a).2)

theorem Builds.map (g : α → β) (h : Builds builder m nodes) : Builds builder (g <$> m) nodes := h

variable {e : Expr}

theorem Builds.edges {f : α → BuildM MIRExpression} (first : Builds builder m nodes)
    (rest : ∀ x, BuildsEdges builder e (f x) nodes') :
    BuildsEdges builder e (m >>= f) (nodes ++ nodes') :=
  fun a => ⟨(first a).trans (rest (m a).1 (m a).2).1, (rest (m a).1 (m a).2).2⟩

theorem Builds.frame (frame : ∀ a, (m a).2.expressions = a.expressions ∧
    (m a).2.bindings = a.bindings) : Builds builder m [] :=
  fun a => .nothing (frame a).1 ((frame a).2 ▸ prefix_refl _)

theorem addBinding_builds (b : KIRBinding) : Builds builder (addBinding b) [] :=
  fun a => .nothing rfl (prefix_append a.bindings [b])

theorem addStatementRefs_builds (indices : List Nat) :
    Builds builder (addStatementRefs indices) [] :=
  .frame fun _ => ⟨rfl, rfl⟩

theorem exprRow_builds {edges : BuildM MIRExpression} (h : BuildsEdges builder e edges nodes) :
    Builds builder (exprRow (kirExprScalars builder e) edges) (e :: nodes) := by
  intro a
  obtain ⟨built, names⟩ := h { a with
    expressions := a.expressions ++ [{ value := kirExprScalars builder e }] }
  obtain ⟨rows, eq, forall₂⟩ := built.rows
  let run := edges { a with
    expressions := a.expressions ++ [{ value := kirExprScalars builder e }] }
  refine ⟨built.bindings, { run.1 with value := kirExprScalars builder e } :: rows, ?_, ?_⟩
  · change run.2.expressions.set a.expressions.length
      { run.1 with value := kirExprScalars builder e } = _
    rw [show run.2.expressions = _ from eq]
    simp
  · exact .cons ⟨rfl, names⟩ forall₂

theorem stmtRow_builds {value : KIRStmt} {edges : BuildM MIRStatement}
    (h : Builds builder edges nodes) : Builds builder (stmtRow value edges) nodes := by
  intro a
  have built := h { a with statements := a.statements ++ [{ value := value }] }
  exact ⟨built.bindings, built.rows⟩

variable {row : MIRExpression}

theorem exprLists_builds (bare : row.binding = none) (unresolved : lookedUp builder e = none)
    (args items keys values : List Nat) :
    BuildsEdges builder e (exprLists row args items keys values) [] := by
  refine fun a => ⟨.nothing rfl (prefix_refl a.bindings), ?_⟩
  rw [unresolved]
  exact bare

theorem stmtLists_builds {row : MIRStatement} {thenBody elseBody body : BuildM (List Nat)}
    {nodes₁ nodes₂ nodes₃ : List Expr} (first : Builds builder thenBody nodes₁)
    (second : Builds builder elseBody nodes₂) (third : Builds builder body nodes₃) :
    Builds builder (stmtLists row thenBody elseBody body) (nodes₁ ++ (nodes₂ ++ nodes₃)) := by
  have refs {m : BuildM (List Nat)} {nodes : List Expr} (h : Builds builder m nodes) :
      Builds builder (m >>= addStatementRefs) nodes := by
    simpa using h.bind addStatementRefs_builds
  exact fun a => (refs first a).trans ((refs second _).trans (refs third _))

theorem stmtArms_builds (row : MIRStatement) (arms : List Nat) :
    Builds builder (stmtArms row arms) [] :=
  .frame fun _ => ⟨rfl, rfl⟩

theorem stmtLeaf_builds (row : MIRStatement) : Builds builder (stmtLeaf row) [] :=
  .frame fun _ => ⟨rfl, rfl⟩

theorem addPattern_builds (p : Pattern) : Builds builder (addPattern builder p) [] := by
  intro a
  by_cases bound : p.binding != ""
  · simp only [addPattern, bound, if_true]
    exact .nothing rfl (prefix_append a.bindings _)
  · simp only [addPattern, bound]
    exact .nothing rfl (prefix_refl a.bindings)

theorem addArm_builds (p : Pattern) {body : BuildM (List Nat)} (h : Builds builder body nodes) :
    Builds builder (addArm builder p body) nodes := by
  intro a
  have first := @addPattern_builds builder p { a with arms := a.arms ++ [{}] }
  have both := first.trans (h _)
  exact ⟨both.bindings, both.rows⟩

theorem addParameter_builds (p : ParamSig) {default : BuildM MIRRef}
    (h : Builds builder default nodes) : Builds builder (addParameter builder p default) nodes := by
  intro a
  have both := (h a).trans (addBinding_builds
    (kirBinding builder.paths p.name p.type.text false p.tok) (default a).2)
  rw [append_nil] at both
  exact ⟨both.bindings, both.rows⟩

theorem addParameters_builds (params : List ParamSig) :
    Builds builder (addParameters builder params) [] := by
  induction params with
  | nil => exact .pure _
  | cons p ps ih =>
    exact (addParameter_builds p (.pure none)).bind fun _ => ih.bind fun _ => .pure _

theorem addCaptures_builds (captures : List Capture) :
    Builds builder (addCaptures builder captures) [] := by
  induction captures with
  | nil => exact .pure _
  | cons c cs ih =>
    exact (addBinding_builds _).bind fun _ =>
      (Builds.frame fun _ => ⟨rfl, rfl⟩ : Builds builder _ []).bind fun _ =>
        ih.bind fun _ => .pure _

theorem addFunction_builds (value : KIRFunction) {params body : BuildM (List Nat)}
    (captures : List Capture) (first : Builds builder params nodes)
    (second : Builds builder body nodes') :
    Builds builder (addFunction builder value params body captures) (nodes ++ nodes') := by
  intro a
  have both := (first { a with functions := a.functions ++ [{ value := value }] }).trans
    ((second _).trans (addCaptures_builds (captures.mergeSort (captureBefore builder)) _))
  rw [append_nil] at both
  exact ⟨both.bindings, both.rows⟩

/-! ## The walk -/

theorem exprLists_builds_bare (bare : row.binding = none) (unresolved : lookedUp builder e = none) :
    BuildsEdges builder e (exprLists row [] [] [] []) [] :=
  exprLists_builds bare unresolved [] [] [] []

theorem var_builds (i : ExprInfo) (name : String) (ref : Resolution) :
    BuildsEdges builder (.var i name ref) (exprEdges builder (.var i name ref)) [] := by
  intro a
  simp only [exprEdges]
  cases found : lookedUp builder (.var i name ref) with
  | none => exact ⟨.nothing rfl (prefix_refl a.bindings), rfl⟩
  | some b =>
    refine ⟨.nothing rfl (prefix_append a.bindings [b]), a.bindings.length, rfl, ?_⟩
    exact getElem?_concat_length

mutual

/-- The walk over an expression puts down the rows under it. -/
theorem exprEdges_builds (e : Expr) : BuildsEdges builder e (exprEdges builder e)
    (liveNodes (e.under builder.isBuiltin true)) := by
  cases e with
  | int | float | bool | nil | string | enum => exact exprLists_builds_bare rfl rfl
  | var i name ref => exact var_builds i name ref
  | unary i op operand =>
    have h : BuildsEdges builder (.unary i op operand)
        (exprEdges builder (.unary i op operand)) _ :=
      (exprRow_builds (exprEdges_builds operand)).edges fun _ => exprLists_builds_bare rfl rfl
    simpa [Expr.under] using h
  | propagate i operand =>
    have h : BuildsEdges builder (.propagate i operand)
        (exprEdges builder (.propagate i operand)) _ :=
      (exprRow_builds (exprEdges_builds operand)).edges fun _ => exprLists_builds_bare rfl rfl
    simpa [Expr.under] using h
  | field i base name ref =>
    have h : BuildsEdges builder (.field i base name ref)
        (exprEdges builder (.field i base name ref)) _ :=
      (exprRow_builds (exprEdges_builds base)).edges fun _ => exprLists_builds_bare rfl rfl
    simpa [Expr.under] using h
  | binary i op left right =>
    have h : BuildsEdges builder (.binary i op left right)
        (exprEdges builder (.binary i op left right)) _ :=
      (exprRow_builds (exprEdges_builds left)).edges fun _ =>
        (exprRow_builds (exprEdges_builds right)).edges fun _ => exprLists_builds_bare rfl rfl
    simpa [Expr.under] using h
  | index i base left =>
    have h : BuildsEdges builder (.index i base left) (exprEdges builder (.index i base left)) _ :=
      (exprRow_builds (exprEdges_builds left)).edges fun _ =>
        (exprRow_builds (exprEdges_builds base)).edges fun _ => exprLists_builds_bare rfl rfl
    simpa [Expr.under] using h
  | call i callee args ref =>
    have rest (callee' : MIRRef) : BuildsEdges builder (.call i callee args ref)
        (exprsRows builder args >>= fun args => exprLists { callee := callee' } args [] [] []) _ :=
      (exprsRows_builds args).edges fun _ => exprLists_builds rfl rfl _ _ _ _
    cases omits : omitsCallee builder.isBuiltin callee ref with
    | true =>
      simpa [exprEdges, Expr.under, omits, Expr.under_false] using rest none
    | false =>
      have h := ((exprRow_builds (exprEdges_builds callee)).map some).edges rest
      simpa [exprEdges, Expr.under, omits] using h
  | method i receiver name args ref =>
    have h : BuildsEdges builder (.method i receiver name args ref)
        (exprEdges builder (.method i receiver name args ref)) _ :=
      (exprRow_builds (exprEdges_builds receiver)).edges fun _ =>
        (exprsRows_builds args).edges fun _ => exprLists_builds rfl rfl _ _ _ _
    simpa [Expr.under] using h
  | array i items =>
    have h : BuildsEdges builder (.array i items) (exprEdges builder (.array i items)) _ :=
      (exprsRows_builds items).edges fun _ => exprLists_builds rfl rfl _ _ _ _
    simpa [Expr.under] using h
  | set i items =>
    have h : BuildsEdges builder (.set i items) (exprEdges builder (.set i items)) _ :=
      (exprsRows_builds items).edges fun _ => exprLists_builds rfl rfl _ _ _ _
    simpa [Expr.under] using h
  | struct i spec fields values ref =>
    have h : BuildsEdges builder (.struct i spec fields values ref)
        (exprEdges builder (.struct i spec fields values ref)) _ :=
      (exprsRows_builds values).edges fun _ => exprLists_builds rfl rfl _ _ _ _
    simpa [Expr.under] using h
  | map i keys values =>
    have h : BuildsEdges builder (.map i keys values) (exprEdges builder (.map i keys values)) _ :=
      (exprsRows_builds keys).edges fun _ => (exprsRows_builds values).edges fun _ =>
        exprLists_builds rfl rfl _ _ _ _
    simpa [Expr.under] using h
  | lambda i sig body captures =>
    have function := addFunction_builds (lambdaScalars builder sig) captures
      (@addParameters_builds builder sig.params) (stmtsRows_builds body)
    intro a
    have built := function (exprLists {} [] [] [] [] a).2
    rw [nil_append] at built
    exact ⟨⟨built.bindings, built.rows⟩, rfl⟩

theorem exprsRows_builds (es : List Expr) :
    Builds builder (exprsRows builder es) (liveNodes (exprsNodes builder.isBuiltin true es)) := by
  cases es with
  | nil => exact .pure []
  | cons e es =>
    have h : Builds builder (exprsRows builder (e :: es)) _ :=
      (exprRow_builds (exprEdges_builds e)).bind fun _ => (exprsRows_builds es).bind fun _ =>
        .pure _
    simpa [exprsNodes] using h

theorem stmtEdges_builds (s : Stmt) :
    Builds builder (stmtEdges builder s) (liveNodes (s.nodes builder.isBuiltin true)) := by
  cases s with
  | letStmt info init =>
    have h : Builds builder (stmtEdges builder (.letStmt info init)) _ :=
      (addBinding_builds _).bind fun _ => (exprRow_builds (exprEdges_builds init)).bind fun _ =>
        stmtLeaf_builds _
    simpa [Stmt.nodes] using h
  | exprStmt tok e =>
    have h : Builds builder (stmtEdges builder (.exprStmt tok e)) _ :=
      (exprRow_builds (exprEdges_builds e)).bind fun _ => stmtLeaf_builds _
    simpa [Stmt.nodes] using h
  | assign tok target value =>
    have h : Builds builder (stmtEdges builder (.assign tok target value)) _ :=
      (exprRow_builds (exprEdges_builds target)).bind fun _ =>
        (exprRow_builds (exprEdges_builds value)).bind fun _ => stmtLeaf_builds _
    simpa [Stmt.nodes] using h
  | ifStmt tok cond thenBody elseBody =>
    have h : Builds builder (stmtEdges builder (.ifStmt tok cond thenBody elseBody)) _ :=
      (exprRow_builds (exprEdges_builds cond)).bind fun _ =>
        (stmtLists_builds (stmtsRows_builds thenBody) (stmtsRows_builds elseBody)
          (.pure [])).bind fun _ => stmtArms_builds _ _
    simpa [Stmt.nodes] using h
  | whileStmt tok cond body =>
    have h : Builds builder (stmtEdges builder (.whileStmt tok cond body)) _ :=
      (exprRow_builds (exprEdges_builds cond)).bind fun _ =>
        (stmtLists_builds (.pure []) (.pure []) (stmtsRows_builds body)).bind fun _ =>
          stmtArms_builds _ _
    simpa [Stmt.nodes] using h
  | forStmt info iter body =>
    have h : Builds builder (stmtEdges builder (.forStmt info iter body)) _ :=
      (addBinding_builds _).bind fun _ => (exprRow_builds (exprEdges_builds iter)).bind fun _ =>
        (stmtLists_builds (.pure []) (.pure []) (stmtsRows_builds body)).bind fun _ =>
          stmtArms_builds _ _
    simpa [Stmt.nodes] using h
  | returnStmt tok value =>
    cases value with
    | none => exact stmtLeaf_builds _
    | some e =>
      have h : Builds builder (stmtEdges builder (.returnStmt tok (some e))) _ :=
        (exprRow_builds (exprEdges_builds e)).bind fun _ => stmtLeaf_builds _
      simpa [Stmt.nodes] using h
  | breakStmt tok | continueStmt tok => exact stmtLeaf_builds _
  | deferStmt tok body =>
    have h : Builds builder (stmtEdges builder (.deferStmt tok body)) _ :=
      (stmtLists_builds (.pure []) (.pure []) (stmtsRows_builds body)).bind fun _ =>
        stmtArms_builds _ _
    simpa [Stmt.nodes] using h
  | unsafeStmt tok body =>
    have h : Builds builder (stmtEdges builder (.unsafeStmt tok body)) _ :=
      (stmtLists_builds (.pure []) (.pure []) (stmtsRows_builds body)).bind fun _ =>
        stmtArms_builds _ _
    simpa [Stmt.nodes] using h
  | matchStmt tok scrutinee arms =>
    have h : Builds builder (stmtEdges builder (.matchStmt tok scrutinee arms)) _ :=
      (exprRow_builds (exprEdges_builds scrutinee)).bind fun _ =>
        (stmtLists_builds (.pure []) (.pure []) (.pure [])).bind fun _ =>
          (armsRows_builds arms).bind fun _ => stmtArms_builds _ _
    simpa [Stmt.nodes] using h

theorem stmtsRows_builds (body : List Stmt) :
    Builds builder (stmtsRows builder body)
      (liveNodes (stmtsNodes builder.isBuiltin true body)) := by
  cases body with
  | nil => exact .pure []
  | cons s rest =>
    have h : Builds builder (stmtsRows builder (s :: rest)) _ :=
      (stmtRow_builds (stmtEdges_builds s)).bind fun _ => (stmtsRows_builds rest).bind fun _ =>
        .pure _
    simpa [stmtsNodes] using h

theorem armsRows_builds (arms : List MatchArm) :
    Builds builder (armsRows builder arms) (liveNodes (armsNodes builder.isBuiltin true arms)) := by
  match arms with
  | [] => exact .pure []
  | .mk p body :: rest =>
    have h : Builds builder (armsRows builder (.mk p body :: rest)) _ :=
      (addArm_builds p (stmtsRows_builds body)).bind fun _ => (armsRows_builds rest).bind fun _ =>
        .pure _
    simpa [armsNodes] using h

end

/-! ## Programs -/

theorem addFunctionParameters_builds (params : List Param) :
    Builds builder (addFunctionParameters builder params)
      (liveNodes (params.flatMap (·.nodes builder.isBuiltin))) := by
  induction params with
  | nil => exact .pure []
  | cons p ps ih =>
    have h : Builds builder (addFunctionParameters builder (p :: ps))
        (liveNodes (p.nodes builder.isBuiltin) ++
          (liveNodes (ps.flatMap (·.nodes builder.isBuiltin)) ++ [])) := by
      refine (addParameter_builds p.toParamSig ?_).bind fun _ => ih.bind fun _ => .pure _
      cases written : p.default with
      | none => simpa [Param.nodes, written] using Builds.pure _
      | some e =>
        simpa [Param.nodes, written, Expr.nodes, addExpr] using
          (exprRow_builds (exprEdges_builds e)).map some
    simpa using h

theorem addFunctions_builds (functions : List Function) :
    Builds builder (addFunctions builder functions)
      (liveNodes (functions.flatMap (·.nodes builder.isBuiltin))) := by
  induction functions with
  | nil => exact .pure []
  | cons f fs ih =>
    have h : Builds builder (addFunctions builder (f :: fs)) _ :=
      (addFunction_builds (functionScalars builder f) [] (addFunctionParameters_builds f.params)
        (stmtsRows_builds f.body)).bind fun _ => ih.bind fun _ => .pure _
    simpa [Function.nodes] using h

theorem buildKIRArena_rows (p : Program) :
    List.Forall₂ (RowOf builder (buildKIRArena builder p).bindings)
      (liveNodes (p.nodes builder.isBuiltin)) (buildKIRArena builder p).expressions := by
  have h : Builds builder (buildProgram builder p) _ :=
    (addFunctions_builds p.functions).bind fun _ =>
      (Builds.frame fun _ => ⟨rfl, rfl⟩ : Builds builder _ []).bind fun _ =>
        (Builds.frame fun _ => ⟨rfl, rfl⟩ : Builds builder _ []).bind fun _ =>
          (stmtsRows_builds p.statements).bind fun _ =>
            (Builds.frame fun _ => ⟨rfl, rfl⟩ : Builds builder _ [])
  obtain ⟨rows, eq, forall₂⟩ := (h {}).rows
  have same : (buildKIRArena builder p).expressions = rows := by simpa [buildKIRArena] using eq
  rw [same]
  simpa [Program.nodes, buildKIRArena] using forall₂

end Rows

end Kryndel
