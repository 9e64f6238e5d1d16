import Kryndel.Checker.Captures
import Kryndel.Kir.BuilderRows

/-!
# The bindings of the arena

The checker resolves a reference against the names declared so far; the arena builder
looks it up again in the same scopes when these hold all the names of their blocks. The
two find the same declaration for every reference of a program exactly if no block that
is around a reference goes on to declare its name again.

A callee that is a variable with the name of a builtin has no row at all.
-/

namespace Kryndel

open Lexical List Option

/-- Is this the name of a builtin? -/
def CheckEnv.isBuiltin (env : CheckEnv) (name : String) : Bool := (env.builtins name).isSome

/-- The builder after a check that left the scopes `h`. -/
def CheckEnv.arenaBuilder (env : CheckEnv) (paths : String → String) (h : Scopes) :
    ArenaBuilder where
  isBuiltin := env.isBuiltin
  scopes := h
  paths := paths

/-- Every variable reference and assignment target that the checker resolved to a
    declaration has a row in the arena, and the row's binding is that declaration. The row
    of a node is the one after the rows of the nodes before it. -/
def ReferencesRight (builder : ArenaBuilder) (p : Program) : Prop :=
  ∀ before live i name ref after d,
    p.nodes builder.isBuiltin = before ++ (live, .var i name ref) :: after →
      ref.function = none → ref.definition = some d →
        live = true ∧
          ((buildKIRArena builder p).recordedBinding (liveNodes before).length).map (·.id) =
            some (kirBindingID builder.paths name d)

/-- A reference finds, among the names that its blocks end with, the declaration that is
    in force at the reference, and a call of a variable does not name a builtin. -/
def Settled (isBuiltin : String → Bool) (paths : String → String) (c : Blocks) : Outline → Prop
  | .use name _ | .assign name _ =>
      ∀ r ∈ resolve .now c name,
        (resolve .fin c name).map (fun f => kirBindingID paths name f.2.token) =
          some (kirBindingID paths name r.2.token)
  | .call _ _ (.use name _) _ => isBuiltin name = true → resolve .now c name = none
  | _ => True

instance (isBuiltin : String → Bool) (paths : String → String) (c : Blocks) (s : Outline) :
    Decidable (Settled isBuiltin paths c s) := by
  unfold Settled
  split <;> infer_instance

/-! ## Rows and marks -/

theorem forall₂_at {α β : Type} {R : α → β → Prop} {before after : List α} {a : α} {rows : List β}
    (h : List.Forall₂ R (before ++ a :: after) rows) :
    ∃ row, rows[before.length]? = some row ∧ R a row := by
  induction before generalizing rows with
  | nil =>
    cases h with
    | cons here _ => exact ⟨_, rfl, here⟩
  | cons b before ih =>
    cases h with
    | cons _ rest => exact ih rest

/-- What the record on a reference has to be for its row to be right. -/
def MarkRight (builder : ArenaBuilder) (live : Bool) (name : String) (m : Mark) : Prop :=
  m.isFunction = false → ∀ d ∈ m.definition, live = true ∧
    (m.scope.bind fun scope => builder.scopes.lookup scope name).map
      (fun b => kirBindingID builder.paths name b.token) = some (kirBindingID builder.paths name d)

instance (builder : ArenaBuilder) (live : Bool) (name : String) (m : Mark) :
    Decidable (MarkRight builder live name m) := by
  unfold MarkRight
  infer_instance

instance (builder : ArenaBuilder) (x : Bool × Expr) : Decidable (MarkOf (MarkRight builder) x) := by
  unfold MarkOf
  split <;> infer_instance

theorem markRight_readsOff {builder : ArenaBuilder} (named : builder.isBuiltin "" = false) :
    ReadsOff builder.isBuiltin (MarkRight builder) where
  lenient live name m none _ d found := by simp [none] at found
  mono name m absent isFunction d found := by cases (absent isFunction d found).1
  named := named

theorem referencesRight_iff_marks (builder : ArenaBuilder) (p : Program) :
    ReferencesRight builder p ↔ ∀ x ∈ p.nodes builder.isBuiltin, MarkOf (MarkRight builder) x := by
  have rows := @buildKIRArena_rows builder p
  -- the row of a live variable has the binding that its lookup finds
  have recorded {before after : List (Bool × Expr)} {i : ExprInfo} {name : String}
      {ref : Resolution}
      (eq : p.nodes builder.isBuiltin = before ++ (true, .var i name ref) :: after)
      (plain : ref.function = none) :
      ((buildKIRArena builder p).recordedBinding (liveNodes before).length).map (·.id) =
        (ref.scope.bind fun scope => builder.scopes.lookup scope name).map
          (fun b => kirBindingID builder.paths name b.token) := by
    rw [eq, liveNodes_append, liveNodes_cons_true] at rows
    obtain ⟨row, found, right⟩ := forall₂_at rows
    simp only [KIRArena.recordedBinding, found, Option.bind_some, right.binding.bindingAt, lookedUp,
      plain, Option.isNone_none, if_true, Option.map_map]
    rfl
  constructor
  · rintro right ⟨live, e⟩ mem
    cases e with
    | var i name ref =>
      intro notFunction d found
      obtain ⟨before, after, eq⟩ := append_of_mem mem
      have plain : ref.function = none := by simpa [Resolution.mark] using notFunction
      obtain ⟨rfl, same⟩ := right before live i name ref after d eq plain found
      exact ⟨rfl, (recorded eq plain).symm.trans same⟩
    | _ => trivial
  · intro marks before live i name ref after d eq plain found
    obtain ⟨rfl, same⟩ := marks (live, .var i name ref) (by simp [eq])
      (by simp [Resolution.mark, plain]) d found
    exact ⟨rfl, (recorded eq plain).trans same⟩

/-! ## Unreached code -/

mutual

theorem Expr.dead_unchecked (e : Expr) (h : e.unchecked = true) :
    ∀ s ∈ e.dead, s.unchecked = true := by
  cases e with simp only [Expr.unchecked, Bool.and_eq_true] at h
  | int | float | bool | nil | string | var | enum => simp [Expr.dead]
  | unary i op operand | propagate i operand | field i operand name ref =>
    exact operand.dead_unchecked h.2
  | binary i op left right | index i left right =>
    exact forall_mem_append.mpr ⟨left.dead_unchecked h.1.2, right.dead_unchecked h.2⟩
  | call i callee args ref | method i callee name args ref =>
    exact forall_mem_append.mpr ⟨callee.dead_unchecked h.1.2, exprsDead_unchecked args h.2⟩
  | array i items | set i items | struct i spec fields items ref =>
    exact exprsDead_unchecked items h.2
  | map i keys values =>
    exact forall_mem_append.mpr
      ⟨exprsDead_unchecked keys h.1.2, exprsDead_unchecked values h.2⟩
  | lambda i sig body captures =>
    exact stmtsDead_unchecked body h.2

theorem exprsDead_unchecked (es : List Expr) (h : exprsUnchecked es = true) :
    ∀ s ∈ exprsDead es, s.unchecked = true := by
  cases es with
  | nil => simp [exprsDead]
  | cons e es =>
    simp only [exprsUnchecked, Bool.and_eq_true] at h
    exact forall_mem_append.mpr ⟨e.dead_unchecked h.1, exprsDead_unchecked es h.2⟩

theorem Stmt.dead_unchecked (s : Stmt) (h : s.unchecked = true) :
    ∀ t ∈ s.dead, t.unchecked = true := by
  cases s with
  | letStmt info init => exact init.dead_unchecked h
  | exprStmt tok e => exact e.dead_unchecked h
  | assign tok target value =>
    simp only [Stmt.unchecked, Bool.and_eq_true] at h
    exact forall_mem_append.mpr ⟨target.dead_unchecked h.1, value.dead_unchecked h.2⟩
  | ifStmt tok cond thenBody elseBody =>
    simp only [Stmt.unchecked, Bool.and_eq_true] at h
    simp only [Stmt.dead, forall_mem_append]
    exact ⟨⟨cond.dead_unchecked h.1.1, stmtsDead_unchecked thenBody h.1.2⟩,
      stmtsDead_unchecked elseBody h.2⟩
  | whileStmt tok cond body | forStmt info cond body =>
    simp only [Stmt.unchecked, Bool.and_eq_true] at h
    exact forall_mem_append.mpr ⟨cond.dead_unchecked h.1, stmtsDead_unchecked body h.2⟩
  | returnStmt tok value =>
    cases value with
    | none => simp [Stmt.dead]
    | some e => exact e.dead_unchecked h
  | breakStmt tok | continueStmt tok => simp [Stmt.dead]
  | deferStmt tok body | unsafeStmt tok body => exact stmtsDead_unchecked body h
  | matchStmt tok scrutinee arms =>
    simp only [Stmt.unchecked, Bool.and_eq_true] at h
    exact forall_mem_append.mpr ⟨scrutinee.dead_unchecked h.1, armsDead_unchecked arms h.2⟩

theorem stmtsDead_unchecked (body : List Stmt) (h : stmtsUnchecked body = true) :
    ∀ s ∈ stmtsDead body, s.unchecked = true := by
  cases body with
  | nil => simp [stmtsDead]
  | cons s rest =>
    simp only [stmtsUnchecked, Bool.and_eq_true] at h
    simp only [stmtsDead, forall_mem_append]
    refine ⟨s.dead_unchecked h.1, ?_⟩
    split
    · exact stmtsDead_unchecked rest h.2
    · exact stmtsUnchecked_iff.mp h.2

theorem armsDead_unchecked (arms : List MatchArm) (h : armsUnchecked arms = true) :
    ∀ s ∈ armsDead arms, s.unchecked = true := by
  match arms with
  | [] => simp [armsDead]
  | .mk p body :: rest =>
    simp only [armsUnchecked, Bool.and_eq_true] at h
    exact forall_mem_append.mpr ⟨stmtsDead_unchecked body h.1, armsDead_unchecked rest h.2⟩

end

theorem Program.dead_unchecked {p : Program} (fresh : p.unchecked = true) :
    ∀ s ∈ p.dead, s.unchecked = true := by
  simp only [Program.unchecked, Bool.and_eq_true, List.all_eq_true, Function.unchecked] at fresh
  simp only [Program.dead, Function.dead, List.mem_append, List.mem_flatMap]
  rintro s (⟨f, mem, ⟨q, param, dead⟩ | dead⟩ | dead)
  · have blank := (fresh.1 f mem).1 q param
    cases written : q.default with
    | none => simp [Param.dead, written] at dead
    | some e =>
      simp only [Param.unchecked, written, all_some] at blank
      exact e.dead_unchecked blank s (by simpa [Param.dead, written] using dead)
  · exact stmtsDead_unchecked f.body (fresh.1 f mem).2 s dead
  · exact stmtsDead_unchecked _ fresh.2 s dead

/-! ## Nodes of programs -/

section References

variable {isBuiltin : String → Bool} {P : Bool → String → Mark → Prop}

theorem defaultsNodes_iff (rule : ReadsOff isBuiltin P) (params : List Param) (c : Blocks)
    (fin : List (String × Decl)) (level : Nat) (now : List (String × Decl))
    (dead : ∀ s ∈ params.flatMap Param.dead, s.unchecked = true)
    (direct : EverywhereItems DirectNames c fin level now (params.map Param.item)) :
    (∀ x ∈ params.flatMap (·.nodes isBuiltin), MarkOf P x) ↔
      EverywhereItems (PartMark isBuiltin P) c fin level now (params.map Param.item) := by
  induction params generalizing now with
  | nil => simp
  | cons p ps ih =>
    simp only [flatMap_cons, forall_mem_append] at dead
    obtain ⟨here, below⟩ := everywhereItems_cons.mp direct
    have first : (∀ x ∈ p.nodes isBuiltin, MarkOf P x) ↔
        Everywhere (PartMark isBuiltin P) ({ now := now, fin := fin, level := level } :: c)
          p.item.part := by
      cases written : p.default with
      | none => simp [Param.nodes, Param.item, Item.part, written, PartMark]
      | some e =>
        simp only [Param.dead, written] at dead
        simp only [Param.item, Item.part, written] at here
        simpa [Param.nodes, Expr.nodes, Param.item, Item.part, written] using
          e.nodes_iff rule _ dead.1 here
    simp only [flatMap_cons, forall_mem_append, map_cons, everywhereItems_cons,
      first]
    exact and_congr_right fun _ => ih _ dead.2 below

theorem partMark_block {c : Blocks} {params : List (String × Decl)} {body : List SketchItem} :
    Everywhere (PartMark isBuiltin P) c (.block params body) ↔
      EverywhereItems (PartMark isBuiltin P) c (declared params body) c.level params body := by
  simp [PartMark]

theorem Function.nodes_iff (rule : ReadsOff isBuiltin P) (f : Function) (c : Blocks)
    (dead : ∀ s ∈ f.dead, s.unchecked = true)
    (direct : ∀ s ∈ f.sketches, Everywhere DirectNames c s) :
    (∀ x ∈ f.nodes isBuiltin, MarkOf P x) ↔
      ∀ s ∈ f.sketches, Everywhere (PartMark isBuiltin P) c s := by
  simp only [Function.dead, forall_mem_append] at dead
  simp only [sketches, forall_mem_cons] at direct
  have defaults := defaultsNodes_iff rule f.params c _ c.level _ dead.1
    (everywhere_block.mp direct.1).2
  have body := stmtsNodes_iff rule f.body c _ c.level _ dead.2
    (everywhere_block.mp direct.2.1).2
  simp only [Function.nodes, sketches, forall_mem_append, forall_mem_cons, defaultsSketch,
    bodySketch, partMark_block, defaults, body]
  simp

theorem Program.nodes_iff (rule : ReadsOff isBuiltin P) (p : Program) (c : Blocks)
    (dead : ∀ s ∈ p.dead, s.unchecked = true)
    (direct : ∀ s ∈ p.sketches, Everywhere DirectNames c s) :
    (∀ x ∈ p.nodes isBuiltin, MarkOf P x) ↔
      ∀ s ∈ p.sketches, Everywhere (PartMark isBuiltin P) c s := by
  simp only [Program.dead, forall_mem_append, forall_mem_flatMap] at dead
  simp only [sketches, forall_mem_append, forall_mem_flatMap,
    forall_mem_singleton] at direct
  have functions : (∀ f ∈ p.functions, ∀ x ∈ f.nodes isBuiltin, MarkOf P x) ↔
      ∀ f ∈ p.functions, ∀ s ∈ f.sketches, Everywhere (PartMark isBuiltin P) c s :=
    forall₂_congr fun f mem => f.nodes_iff rule c (dead.1 f mem) (direct.1 f mem)
  have top := stmtsNodes_iff rule p.statements c _ c.level [] dead.2
    (everywhere_block.mp direct.2).2
  simp only [Program.nodes, sketches, forall_mem_append, forall_mem_flatMap,
    forall_mem_singleton, topSketch, partMark_block, functions, top]

end References

/-! ## Marks and declarations -/

section Marks

variable {builder : ArenaBuilder} {c : Blocks} {name : String} {m : Mark}

theorem markRight_resolved {r : Nat × Decl} (found : resolve .now c name = some r)
    (right : RefRight builder.scopes c name m) (isFunction : m.isFunction = false) :
    MarkRight builder true name m ↔
      (resolve .fin c name).map (fun f => kirBindingID builder.paths name f.2.token) =
        some (kirBindingID builder.paths name r.2.token) := by
  simp only [RefRight, found] at right
  obtain ⟨definition, scope, recorded, same⟩ := right
  have looked : (builder.scopes.lookup scope name).map
      (fun b => kirBindingID builder.paths name b.token) =
        (resolve .fin c name).map fun f => kirBindingID builder.paths name f.2.token := by
    have tokens := congrArg (Option.map fun d => kirBindingID builder.paths name d.token) same
    simpa [Option.map_map, Function.comp_def, Binding.decl] using tokens
  simp [MarkRight, isFunction, definition, recorded, looked]

theorem markRight_use (sound : Sound builder.scopes c (.use name m))
    (visited : Visited c (.use name m)) :
    MarkRight builder true name m ↔ Settled builder.isBuiltin builder.paths c (.use name ()) := by
  obtain ⟨right, -, bound⟩ := sound
  cases found : resolve .now c name with
  | none =>
    refine ⟨fun _ r eq => by simp [found] at eq, fun _ isFunction d eq => ?_⟩
    have function := right (isSome_of_mem eq)
    simp only [RefRight, found, isFunction] at function
    cases function
  | some r =>
    have isFunction : m.isFunction = false := by
      by_contra function
      exact absurd (bound (by simpa using function)) (by simp [found])
    have here := markRight_resolved found (right (visited (by simp [found]))) isFunction
    simpa [Settled, found] using here

theorem markRight_assign (sound : Sound builder.scopes c (.assign name m))
    (visited : Visited c (.assign name m)) :
    MarkRight builder true name m ↔
      Settled builder.isBuiltin builder.paths c (.assign name ()) := by
  obtain ⟨right, isFunction⟩ := sound
  have refRight := right visited
  cases found : resolve .now c name with
  | none => simp [RefRight, found, isFunction] at refRight
  | some r =>
    have here := markRight_resolved found refRight isFunction
    simpa [Settled, found] using here

theorem markRight_absent (sound : Sound builder.scopes c (.use name m))
    (visited : Visited c (.use name m)) :
    MarkRight builder false name m ↔ resolve .now c name = none := by
  obtain ⟨right, -, bound⟩ := sound
  cases found : resolve .now c name with
  | none =>
    refine ⟨fun _ => rfl, fun _ isFunction d eq => ?_⟩
    have function := right (isSome_of_mem eq)
    simp only [RefRight, found, isFunction] at function
    cases function
  | some r =>
    have isFunction : m.isFunction = false := by
      by_contra function
      exact absurd (bound (by simpa using function)) (by simp [found])
    obtain ⟨d, definition⟩ := isSome_iff_exists.mp (visited (by simp [found]))
    simp only [reduceCtorEq, iff_false]
    intro absent
    cases (absent isFunction d definition).1

/-- The records of a part with right and complete records are right for the arena if the
    part is settled. -/
theorem partMark_iff_settled {s : Sketch} (sound : Everywhere (Sound builder.scopes) c s)
    (visited : Everywhere Visited c s) :
    PartMark builder.isBuiltin (MarkRight builder) c s ↔
      Settled builder.isBuiltin builder.paths c s.erase := by
  cases s with
  | use name m => exact markRight_use (everywhere_use.mp sound) (everywhere_use.mp visited)
  | assign name m =>
    exact markRight_assign (everywhere_assign.mp sound) (everywhere_assign.mp visited)
  | call done direct callee args =>
    cases callee with
    | use name m =>
      obtain ⟨call, calleeSound, -⟩ := everywhere_call.mp sound
      obtain ⟨-, calleeVisited, -⟩ := everywhere_call.mp visited
      have absent := markRight_absent (everywhere_use.mp calleeSound)
        (everywhere_use.mp calleeVisited)
      simp only [PartMark, Skel.erase, Settled, absent, Bool.or_eq_true]
      constructor
      · exact fun h builtin => h (Or.inr builtin)
      · rintro h (known | builtin)
        · obtain ⟨_, _, same, none⟩ := call.2 known
          cases same
          exact none
        · exact h builtin
    | _ => exact Iff.rfl
  | _ => exact Iff.rfl

end Marks

/-! ## Accepted programs -/

theorem Sound.directNames {hf : Scopes} {c : Blocks} {s : Sketch} (h : Sound hf c s) :
    DirectNames c s := by
  cases s with
  | call done direct callee args =>
    intro known
    obtain ⟨name, m, same, -⟩ := h.2 known
    exact ⟨name, m, same⟩
  | _ => trivial

/-- Every reference of an accepted program has the row of its declaration exactly if every
    reference is settled. -/
theorem references_right_iff [FloatArith] {env : CheckEnv} (builtins : BuiltinsCheckArguments env)
    (named : env.builtins "" = none) {depth : Nat} {p p' : Program} {h : Scopes}
    (fresh : p.unchecked = true) (accepted : check env depth p = .ok (p', h))
    (paths : String → String) :
    ReferencesRight (env.arenaBuilder paths h) p' ↔
      ∀ s ∈ p.sketches, Everywhere (Settled env.isBuiltin paths) (p.blocks env) s.erase := by
  have records := check_records builtins fresh accepted
  let builder := env.arenaBuilder paths h
  have rule : ReadsOff builder.isBuiltin (MarkRight builder) :=
    markRight_readsOff (by simp [builder, CheckEnv.arenaBuilder, CheckEnv.isBuiltin, named])
  have direct : ∀ s ∈ p'.sketches, Everywhere DirectNames (p.blocks env) s :=
    fun s mem => (records.sound s mem).mono fun _ _ => Sound.directNames
  have dead : ∀ s ∈ p'.dead, s.unchecked = true := records.dead ▸ Program.dead_unchecked fresh
  have each (s : Sketch) (mem : s ∈ p'.sketches) :
      Everywhere (PartMark builder.isBuiltin (MarkRight builder)) (p.blocks env) s ↔
        Everywhere (Settled env.isBuiltin paths) (p.blocks env) s.erase := by
    rw [everywhere_erase]
    exact forall₂_congr fun x inside => partMark_iff_settled ((records.sound s mem).part inside)
      ((records.visited s mem).part inside)
  calc ReferencesRight builder p'
      ↔ ∀ x ∈ p'.nodes builder.isBuiltin, MarkOf (MarkRight builder) x :=
        referencesRight_iff_marks builder p'
    _ ↔ ∀ s ∈ p'.sketches,
          Everywhere (PartMark builder.isBuiltin (MarkRight builder)) (p.blocks env) s :=
        p'.nodes_iff rule (p.blocks env) dead direct
    _ ↔ ∀ s ∈ p'.sketches, Everywhere (Settled env.isBuiltin paths) (p.blocks env) s.erase :=
        forall₂_congr each
    _ ↔ ∀ o ∈ p'.sketches.map Skel.erase,
          Everywhere (Settled env.isBuiltin paths) (p.blocks env) o := by
        rw [List.forall_mem_map]
    _ ↔ ∀ s ∈ p.sketches, Everywhere (Settled env.isBuiltin paths) (p.blocks env) s.erase := by
        rw [records.outlines, List.forall_mem_map]

/-! ## A block that declares a name it has used -/

/-- The program `let x = 0; if true { let y = x; <rest> }`. -/
def blockProgram (rest : List Stmt) : Program where
  statements := [
    .letStmt { tok := tokenAt 0 3, nameToken := tokenAt 4 1, name := "x" }
      (.int { tok := tokenAt 8 1 } 0),
    .ifStmt (tokenAt 11 2) (.bool { tok := tokenAt 14 4 } true)
      (.letStmt { tok := tokenAt 21 3, nameToken := tokenAt 25 1, name := "y" }
        (.var { tok := tokenAt 29 1 } "x" {}) :: rest) []]

/-- `let x = 1;` -/
def letX : Stmt :=
  .letStmt { tok := tokenAt 32 3, nameToken := tokenAt 36 1, name := "x" }
    (.int { tok := tokenAt 40 1 } 1)

/-- The reference in the block has the outer declaration. -/
theorem blockProgram_references_right : ∃ p' h, @check ieee plainEnv 9 (blockProgram []) =
    .ok (p', h) ∧ ReferencesRight (plainEnv.arenaBuilder id h) p' := by
  let _ := ieee
  have ok : (check plainEnv 9 (blockProgram [])).isOk = true := rfl
  cases run : check plainEnv 9 (blockProgram []) with
  | error d => rw [run] at ok; cases ok
  | ok r =>
    refine ⟨r.1, r.2, rfl, (references_right_iff plainEnv_builtins rfl (by decide) run id).mpr ?_⟩
    decide

/-- A later declaration in the block takes the reference over. -/
theorem later_let_takes_reference : ∃ p' h, (blockProgram [letX]).unchecked = true ∧
    @check ieee plainEnv 9 (blockProgram [letX]) = .ok (p', h) ∧
      ¬ReferencesRight (plainEnv.arenaBuilder id h) p' := by
  refine ⟨_, _, by decide, rfl, ?_⟩
  rw [referencesRight_iff_marks]
  decide

end Kryndel
