import Kryndel.Kir.Execution
import Kryndel.Kir.TypeSplit

/-!
# Bodies that return

KIR checks once more that a body returns on every path (`kirExecBlockReturns`). It looks for one
statement that does, in a block, and follows the branches of conditionals and the arms of
matches. Of a match it asks more than the checker: unless there is a wildcard, all patterns have
to be of the kind that the printed type of the scrutinee calls for.
-/

namespace Kryndel

/-! ## The check of KIR -/

/-- The patterns of a match without a wildcard are those for an encoded type, and none of them
    is missing. -/
def kirExecPatternsCover (enums : List EnumDecl) (type : String) (kinds : List PatternKind) :
    Bool :=
  match type with
  | "Bool" => (kinds.all fun | .bool _ => true | _ => false) &&
      (kinds.contains (.bool true) && kinds.contains (.bool false))
  | "Nil" => kinds.length == 1 && kinds.head? == some .nil
  | type =>
    match parseKIRContainerType type with
    | some ("Option", _) => (kinds.all fun | .option _ => true | _ => false) &&
        (kinds.contains (.option true) && kinds.contains (.option false))
    | some ("Result", _) => (kinds.all fun | .result _ => true | _ => false) &&
        (kinds.contains (.result true) && kinds.contains (.result false))
    | _ =>
      match enums.find? (·.name == type) with
      | none => false
      | some decl =>
          (kinds.all fun | .enum typeName _ => typeName == decl.name | _ => false) &&
            decl.variants.all fun variant => kinds.any fun
              | .enum _ found => found == variant
              | _ => false

/-- The kinds of the patterns of arms. -/
def kirPatternKinds : List (Mir.KIRArm sourceScalars) → List PatternKind
  | .node _ (some p) _ :: rest => p.value.kind :: kirPatternKinds rest
  | _ :: rest => kirPatternKinds rest
  | [] => []

/-- The encoded type of an expression. -/
def kirType : Mir.KIRExpr sourceScalars → Option String
  | .nil => none
  | .node value _ _ _ _ _ _ _ _ _ _ _ _ _ => some value.type

section Returns

variable (enums : List EnumDecl)

/-- What `kirExecMatchReturns` asks of a match whose arms all return. -/
def kirExecMatchCovers (scrutinee : Mir.KIRExpr sourceScalars)
    (arms : List (Mir.KIRArm sourceScalars)) : Bool :=
  match kirType scrutinee with
  | none => false
  | some type => !arms.isEmpty && ((kirPatternKinds arms).contains .wildcard ||
      kirExecPatternsCover enums type (kirPatternKinds arms))

mutual

/-- `kirExecBlockReturns`. -/
def kirExecBlockReturns : List (Mir.KIRStmt sourceScalars) → Bool
  | [] => false
  | s :: rest => kirExecStmtReturns s || kirExecBlockReturns rest

/-- The check of one statement, with `kirExecMatchReturns`. -/
def kirExecStmtReturns : Mir.KIRStmt sourceScalars → Bool
  | .nil => false
  | .node value _ _ _ _ _ _ _ _ scrutinee thenBody elseBody _ arms =>
    match value.kind with
    | "return" => true
    | "if" => !elseBody.isEmpty && kirExecBlockReturns thenBody && kirExecBlockReturns elseBody
    | "match" => kirExecMatchCovers enums scrutinee arms && kirExecArmsReturn arms
    | _ => false

/-- The loop of `kirExecMatchReturns` over the arms. -/
def kirExecArmsReturn : List (Mir.KIRArm sourceScalars) → Bool
  | [] => true
  | .node _ (some _) body :: rest => kirExecBlockReturns body && kirExecArmsReturn rest
  | _ :: _ => false

end

end Returns

/-! ## Bodies that are settled -/

/-- The types that have patterns of their own. -/
inductive PatternFamily where
  | bool
  | nil
  | option
  | result
  | enum (decl : EnumDecl)

/-- The family that an encoded type calls for. -/
def patternFamily (enums : List EnumDecl) (type : String) : Option PatternFamily :=
  if type = "Bool" then some .bool
  else if type = "Nil" then some .nil
  else
    match (parseKIRContainerType type).map Prod.fst with
    | some "Option" => some .option
    | some "Result" => some .result
    | _ => (enums.find? (·.name == type)).map .enum

/-- A pattern of a family. -/
def PatternFamily.Has : PatternFamily → PatternKind → Prop
  | .bool, kind => ∃ b, kind = .bool b
  | .nil, kind => kind = .nil
  | .option, kind => ∃ present, kind = .option present
  | .result, kind => ∃ ok, kind = .result ok
  | .enum decl, kind => ∃ variant, kind = .enum decl.name variant

/-- No pattern of the family is missing. A match over `Nil` has one arm. -/
def PatternFamily.Covered (arms : List MatchArm) : PatternFamily → Prop
  | .bool => HasPattern arms (.bool true) ∧ HasPattern arms (.bool false)
  | .nil => arms.length = 1
  | .option => HasPattern arms (.option true) ∧ HasPattern arms (.option false)
  | .result => HasPattern arms (.result true) ∧ HasPattern arms (.result false)
  | .enum decl => ∀ variant ∈ decl.variants, HasPattern arms (.enum decl.name variant)

/-- There is a wildcard, or the arms are those of the family that the printed type of the
    scrutinee calls for. -/
def OwnArms (enums : List EnumDecl) (scrutinee : Expr) (arms : List MatchArm) : Prop :=
  HasPattern arms .wildcard ∨
    ∃ family, patternFamily enums (typeString scrutinee.type none) = some family ∧
      (∀ arm ∈ arms, family.Has arm.pattern.kind) ∧ family.Covered arms

section Settled

variable (enums : List EnumDecl)

mutual

/-- A statement returns on every path, and what it matches on the way has arms of its own. -/
def Stmt.Settled : Stmt → Prop
  | .returnStmt _ _ => True
  | .ifStmt _ _ thenBody elseBody => BodySettled thenBody ∧ BodySettled elseBody
  | .matchStmt _ scrutinee arms => arms ≠ [] ∧ OwnArms enums scrutinee arms ∧ ArmsSettled arms
  | _ => False

/-- Some statement of a body is settled. -/
def BodySettled : List Stmt → Prop
  | [] => False
  | s :: rest => s.Settled ∨ BodySettled rest

/-- All arms of a match are settled. -/
def ArmsSettled : List MatchArm → Prop
  | [] => True
  | .mk _ body :: rest => BodySettled body ∧ ArmsSettled rest

end

end Settled

/-! ## Patterns -/

section Patterns

variable {enums : List EnumDecl} {arms : List MatchArm}

theorem hasPattern_iff {kind : PatternKind} :
    HasPattern arms kind ↔ kind ∈ arms.map fun arm => arm.pattern.kind := by
  simp [HasPattern]

theorem kirPatternKinds_kirArms (builder : ArenaBuilder) :
    kirPatternKinds (kirArms builder arms) = arms.map fun arm => arm.pattern.kind := by
  induction arms with
  | nil => rfl
  | cons arm rest ih =>
    obtain ⟨p, body⟩ := arm
    exact congrArg (p.kind :: ·) ih

variable {kinds : List PatternKind}

theorem covers_flags (make : Bool → PatternKind) {test : PatternKind → Bool}
    (htest : ∀ kind, test kind = true ↔ ∃ b, kind = make b) :
    (kinds.all test && (kinds.contains (make true) && kinds.contains (make false))) = true ↔
      (∀ kind ∈ kinds, ∃ b, kind = make b) ∧ make true ∈ kinds ∧ make false ∈ kinds := by
  simp only [Bool.and_eq_true, List.all_eq_true, List.contains_iff_mem, htest]

theorem covers_enum {decl : EnumDecl} :
    ((kinds.all fun | .enum typeName _ => typeName == decl.name | _ => false) &&
      decl.variants.all fun variant => kinds.any fun
        | .enum _ found => found == variant
        | _ => false) = true ↔
      (∀ kind ∈ kinds, ∃ variant, kind = .enum decl.name variant) ∧
        ∀ variant ∈ decl.variants, .enum decl.name variant ∈ kinds := by
  rw [Bool.and_eq_true, List.all_eq_true, List.all_eq_true]
  have hown : (∀ kind ∈ kinds,
      (match kind with | .enum typeName _ => typeName == decl.name | _ => false) = true) ↔
        ∀ kind ∈ kinds, ∃ variant, kind = .enum decl.name variant := by
    refine forall₂_congr fun kind _ => ?_
    cases kind <;> simp
  rw [hown]
  refine and_congr_right fun hkinds => forall₂_congr fun variant _ => ?_
  rw [List.any_eq_true]
  constructor
  · rintro ⟨kind, hkind, hvariant⟩
    obtain ⟨found, rfl⟩ := hkinds kind hkind
    rwa [← beq_iff_eq.mp hvariant]
  · intro hkind
    exact ⟨_, hkind, beq_self_eq_true variant⟩

theorem kirExecPatternsCover_iff {type : String} :
    kirExecPatternsCover enums type (arms.map fun arm => arm.pattern.kind) = true ↔
      ∃ family, patternFamily enums type = some family ∧
        (∀ arm ∈ arms, family.Has arm.pattern.kind) ∧ family.Covered arms := by
  have hall : ∀ P : PatternKind → Prop, (∀ kind ∈ arms.map fun arm => arm.pattern.kind, P kind) ↔
      ∀ arm ∈ arms, P arm.pattern.kind := by
    intro P
    simp
  unfold kirExecPatternsCover
  split
  · rw [covers_flags .bool (by rintro ⟨⟩ <;> simp), hall]
    simp [patternFamily, PatternFamily.Has, PatternFamily.Covered, hasPattern_iff]
  · rcases arms with _ | ⟨arm, _ | ⟨next, rest⟩⟩ <;>
      simp [patternFamily, PatternFamily.Has, PatternFamily.Covered]
  · rename_i hbool hnil
    rw [patternFamily, if_neg hbool, if_neg hnil]
    split
    · rename_i hparse
      rw [covers_flags .option (by rintro ⟨⟩ <;> simp), hall, hparse]
      simp [PatternFamily.Has, PatternFamily.Covered, hasPattern_iff]
    · rename_i hparse
      rw [covers_flags .result (by rintro ⟨⟩ <;> simp), hall, hparse]
      simp [PatternFamily.Has, PatternFamily.Covered, hasPattern_iff]
    · rename_i hoption hresult
      have hfamily : (match (parseKIRContainerType type).map Prod.fst with
          | some "Option" => some PatternFamily.option
          | some "Result" => some .result
          | _ => (enums.find? (·.name == type)).map .enum) =
            (enums.find? (·.name == type)).map .enum := by
        split
        · rename_i hparse
          obtain ⟨⟨name, arguments⟩, hparse, rfl⟩ := Option.map_eq_some_iff.mp hparse
          exact (hoption arguments hparse).elim
        · rename_i hparse
          obtain ⟨⟨name, arguments⟩, hparse, rfl⟩ := Option.map_eq_some_iff.mp hparse
          exact (hresult arguments hparse).elim
        · rfl
      rw [hfamily]
      cases enums.find? (·.name == type) with
      | none => simp
      | some decl =>
        simp only [Option.map_some, Option.some.injEq, exists_eq_left', covers_enum, hall]
        exact and_congr_right fun _ => forall₂_congr fun _ _ => hasPattern_iff.symm

theorem kirExecMatchCovers_iff (builder : ArenaBuilder) {scrutinee : Expr} :
    kirExecMatchCovers enums (kirExpr builder scrutinee) (kirArms builder arms) = true ↔
      arms ≠ [] ∧ OwnArms enums scrutinee arms := by
  have hempty : (kirArms builder arms).isEmpty = false ↔ arms ≠ [] := by
    rcases arms with _ | ⟨⟨p, body⟩, rest⟩ <;> simp [kirArms]
  show (!(kirArms builder arms).isEmpty && (_ || _)) = true ↔ _
  rw [Bool.and_eq_true, Bool.or_eq_true, Bool.not_eq_true', hempty, kirPatternKinds_kirArms,
    kirExecPatternsCover_iff, List.contains_iff_mem, ← hasPattern_iff]
  rfl

end Patterns

/-! ## Bodies -/

section Bodies

variable (builder : ArenaBuilder) (enums : List EnumDecl)

mutual

theorem kirExecStmtReturns_iff (s : Stmt) :
    kirExecStmtReturns enums (kirStmt builder s) = true ↔ s.Settled enums := by
  cases s with
  | returnStmt tok value => exact iff_of_true rfl trivial
  | ifStmt tok cond thenBody elseBody =>
    show (!(kirStmts builder elseBody).isEmpty &&
      kirExecBlockReturns enums (kirStmts builder thenBody) &&
        kirExecBlockReturns enums (kirStmts builder elseBody)) = true ↔ _
    rw [Bool.and_eq_true, Bool.and_eq_true, kirExecBlockReturns_iff thenBody,
      kirExecBlockReturns_iff elseBody]
    -- a branch that is not there does not return
    refine ⟨fun h => ⟨h.1.2, h.2⟩, fun h => ⟨⟨?_, h.1⟩, h.2⟩⟩
    cases elseBody with
    | nil => exact h.2.elim
    | cons s rest => rfl
  | matchStmt tok scrutinee arms =>
    show (kirExecMatchCovers enums (kirExpr builder scrutinee) (kirArms builder arms) &&
      kirExecArmsReturn enums (kirArms builder arms)) = true ↔ _
    rw [Bool.and_eq_true, kirExecMatchCovers_iff, kirExecArmsReturn_iff arms, and_assoc]
    rfl
  | letStmt info init =>
    obtain ⟨tok, nameToken, name, mutable, isConst, annotationSpec, type⟩ := info
    cases isConst <;> exact iff_of_false Bool.false_ne_true id
  | _ => exact iff_of_false Bool.false_ne_true id

theorem kirExecBlockReturns_iff (body : List Stmt) :
    kirExecBlockReturns enums (kirStmts builder body) = true ↔ BodySettled enums body := by
  cases body with
  | nil => exact iff_of_false Bool.false_ne_true id
  | cons s rest =>
    exact Bool.or_eq_true_iff.trans
      (or_congr (kirExecStmtReturns_iff s) (kirExecBlockReturns_iff rest))

theorem kirExecArmsReturn_iff (arms : List MatchArm) :
    kirExecArmsReturn enums (kirArms builder arms) = true ↔ ArmsSettled enums arms := by
  cases arms with
  | nil => exact iff_of_true rfl trivial
  | cons arm rest =>
    obtain ⟨p, body⟩ := arm
    exact Bool.and_eq_true_iff.trans
      (and_congr (kirExecBlockReturns_iff body) (kirExecArmsReturn_iff rest))

end

end Bodies

/-! ## Matches with arms of their own -/

section OwnMatches

variable (enums : List EnumDecl)

mutual

/-- Every match in a statement, outside of loops and closures, has arms, and of its own. -/
def Stmt.OwnMatches : Stmt → Prop
  | .ifStmt _ _ thenBody elseBody => BodyOwnMatches thenBody ∧ BodyOwnMatches elseBody
  | .matchStmt _ scrutinee arms => arms ≠ [] ∧ OwnArms enums scrutinee arms ∧ ArmsOwnMatches arms
  | _ => True

def BodyOwnMatches : List Stmt → Prop
  | [] => True
  | s :: rest => s.OwnMatches ∧ BodyOwnMatches rest

def ArmsOwnMatches : List MatchArm → Prop
  | [] => True
  | .mk _ body :: rest => BodyOwnMatches body ∧ ArmsOwnMatches rest

end

variable {enums}

mutual

theorem Stmt.settled_of_ownMatches (s : Stmt) (hfalls : s.falls = false)
    (hleaves : s.leavesLoop = false) (h : s.OwnMatches enums) : s.Settled enums := by
  cases s with
  | returnStmt tok value => trivial
  | ifStmt tok cond thenBody elseBody =>
    obtain ⟨hbranches, helse⟩ := Bool.or_eq_false_iff.mp hfalls
    obtain ⟨hthen, -⟩ := Bool.or_eq_false_iff.mp hbranches
    obtain ⟨hleaves, hleaves'⟩ := Bool.or_eq_false_iff.mp hleaves
    exact ⟨bodySettled_of_ownMatches thenBody hthen hleaves h.1,
      bodySettled_of_ownMatches elseBody helse hleaves' h.2⟩
  | matchStmt tok scrutinee arms =>
    exact ⟨h.1, h.2.1, armsSettled_of_ownMatches arms hfalls hleaves h.2.2⟩
  | breakStmt tok | continueStmt tok => cases hleaves
  | _ => cases hfalls

theorem bodySettled_of_ownMatches (body : List Stmt) (hfalls : blockFalls body = false)
    (hleaves : bodyLeavesLoop body = false) (h : BodyOwnMatches enums body) :
    BodySettled enums body := by
  cases body with
  | nil => cases hfalls
  | cons s rest =>
    obtain ⟨hhere, hrest⟩ := Bool.or_eq_false_iff.mp hleaves
    rcases Bool.eq_false_or_eq_true s.falls with hgoes | hstays
    · rw [blockFalls, hgoes, Bool.true_and] at hfalls
      rw [hgoes, Bool.true_and] at hrest
      exact .inr (bodySettled_of_ownMatches rest hfalls hrest h.2)
    · exact .inl (s.settled_of_ownMatches hstays hhere h.1)

theorem armsSettled_of_ownMatches (arms : List MatchArm) (hfalls : anyArmFalls arms = false)
    (hleaves : armsLeaveLoop arms = false) (h : ArmsOwnMatches enums arms) :
    ArmsSettled enums arms := by
  cases arms with
  | nil => trivial
  | cons arm rest =>
    obtain ⟨p, body⟩ := arm
    obtain ⟨hfalls, hfalls'⟩ := Bool.or_eq_false_iff.mp hfalls
    obtain ⟨hleaves, hleaves'⟩ := Bool.or_eq_false_iff.mp hleaves
    exact ⟨bodySettled_of_ownMatches body hfalls hleaves h.1,
      armsSettled_of_ownMatches rest hfalls' hleaves' h.2⟩

end

end OwnMatches

/-! ## What the checker accepts -/

section Accepted

variable [FloatArith] {env : CheckEnv} {rt : Ty} {body : List Stmt}

theorem Accepted.settled (h : Accepted env rt body) (hrt : rt ≠ .nil)
    (hmatches : BodyOwnMatches env.enums body) : BodySettled env.enums body :=
  bodySettled_of_ownMatches body (h.alwaysReturns hrt).falls (h.alwaysReturns hrt).leaves hmatches

end Accepted

/-- `fn code(c: Color) -> Int { match c { Red => { return 1 } Green => { return 2 } } }`, with
    patterns that name this type. -/
def colorCode (typeName : String) : Function where
  name := "code"
  params := [{ name := "c", type := .named "Color" [] default, tok := default }]
  ret := .named "Int" [] default
  body := [.matchStmt default (.var {} "c" {}) [
    .mk { kind := .enum typeName "Red" } [.returnStmt default (some (.int {} 1))],
    .mk { kind := .enum typeName "Green" } [.returnStmt default (some (.int {} 2))]]]

/-- The types of the function, without builtin functions. -/
def colorChecks : CheckEnv := { colorEnv with builtins := fun _ => none }

def checkColorCode (typeName : String) : Function × Option Diagnostic :=
  (@checkFunction colorChecks (@checking ieee colorChecks 4) (colorCode typeName) 0
    (startState {} [])).1

def plainBuilder : ArenaBuilder where
  isBuiltin _ := false
  scopes := []
  paths := id

theorem checkColorCode_accepted (typeName : String)
    (ok : (checkColorCode typeName).2.isNone = true) :
    @Accepted ieee colorChecks .int (checkColorCode typeName).1.body := by
  have header : functionHeader colorChecks.toTypeEnv (colorCode typeName) =
      .ok ([], none, [.enum "Color"]) := by rfl
  have ret : resolveSpec colorChecks.toTypeEnv [] 0 (colorCode typeName).ret = .ok .int := by rfl
  have hok : checkColorCode typeName = ((checkColorCode typeName).1, none) := by
    generalize checkColorCode typeName = checked at ok
    exact Prod.ext rfl (Option.isNone_iff_eq_none.mp ok)
  exact @Accepted.function ieee colorChecks 4 0 (colorCode typeName) _ _ _ _ _ _ header ret hok

end Kryndel
