import Kryndel.Values.Typing

/-!
# Match exhaustiveness

The checker's coverage test and the matcher that runs at run time. The coverage
test collects every pattern of a match in one set of strings, whatever the kind
of the pattern, and reads the set back by the kind of the scrutinee's type. The
matcher tests the kind of the value and, for an enum pattern, the name of the
enum. The two agree only where the strings stand for patterns that can match a
value of the scrutinee's type; `alwaysMatched_iff_covering` says exactly where.
-/

namespace Kryndel

open List

/-! ## The matcher -/

/-- `matchPattern`. -/
def matchPattern (v : Value) (p : Pattern) : Bool :=
  match p.kind, v with
  | .wildcard, _ => true
  | .nil, .nil | .nil, .absent => true
  | .bool b, .bool c => c == b
  | .int i, .int j => j == i
  | .string s, .string t => t == s
  | .enum typeName variant, .enum decl found =>
      found == variant && (typeName == "" || decl == typeName)
  | .option present, .present _ => present
  | .option present, .absent => !present
  | .result ok, .result found _ => found == ok
  | _, _ => false

/-- The arm a match statement executes: the first one that matches. -/
def selectArm (v : Value) (arms : List MatchArm) : Option MatchArm :=
  arms.find? fun arm => matchPattern v arm.pattern

theorem selectArm_isSome_iff {v : Value} {arms : List MatchArm} :
    (selectArm v arms).isSome = true ↔ ∃ arm ∈ arms, matchPattern v arm.pattern = true := by
  simp [selectArm, find?_isSome]

/-! ## The coverage test -/

/-- The loop of `Checker.exhaustive` over the arms of a match without a wildcard:
    every pattern adds a string to the set, and a pattern of `Option`, `Result`
    or enum kind ends the test when the type has another kind. -/
def collectSeen (t : Ty) : List MatchArm → List String → Option (List String)
  | [], seen => some seen
  | arm :: arms, seen =>
      match arm.pattern.kind with
      | .wildcard => collectSeen t arms seen
      | .bool b => collectSeen t arms (toString b :: seen)
      | .nil => collectSeen t arms ("nil" :: seen)
      | .option present =>
          match t with
          | .option _ => collectSeen t arms (toString present :: seen)
          | _ => none
      | .result ok =>
          match t with
          | .result _ _ => collectSeen t arms ((if ok then "ok" else "err") :: seen)
          | _ => none
      | .enum _ variant =>
          match t with
          | .enum _ => collectSeen t arms (variant :: seen)
          | _ => none
      | .int i => collectSeen t arms ((toString i.toInt ++ ":") :: seen)
      | .string s => collectSeen t arms (("0:" ++ s) :: seen)

/-- What `Checker.exhaustive` asks of the finished set, by the type's kind. -/
def seenCovers (env : TypeEnv) (t : Ty) (seen : List String) : Bool :=
  match t with
  | .bool => seen.contains "true" && seen.contains "false"
  | .nil => seen.contains "nil"
  | .option _ => seen.contains "true" && seen.contains "false"
  | .result _ _ => seen.contains "ok" && seen.contains "err"
  | .enum name =>
      match env.enumDecl name with
      | none => false
      | some decl => decl.variants.all fun variant => seen.contains variant
  | _ => false

/-- `Checker.exhaustive`. -/
def exhaustive (env : TypeEnv) (t : Ty) (arms : List MatchArm) : Bool :=
  if arms.any fun arm => arm.pattern.kind == .wildcard then true
  else
    match collectSeen t arms [] with
    | none => false
    | some seen => seenCovers env t seen

/-! ## What the coverage set says about the arms -/

/-- The string a pattern adds to the coverage set. -/
def seenKey : PatternKind → Option String
  | .wildcard => none
  | .bool b => some (toString b)
  | .nil => some "nil"
  | .option present => some (toString present)
  | .result ok => some (if ok then "ok" else "err")
  | .enum _ variant => some variant
  | .int i => some (toString i.toInt ++ ":")
  | .string s => some ("0:" ++ s)

/-- Is a pattern kind allowed with this type? -/
def patternAllowed (t : Ty) : PatternKind → Prop
  | .option _ => ∃ a, t = .option a
  | .result _ => ∃ a b, t = .result a b
  | .enum _ _ => ∃ name, t = .enum name
  | _ => True

/-- One step of the loop: the arm's pattern is allowed, and the loop goes on with
    the pattern's string added. -/
theorem collectSeen_cons {t : Ty} {arm : MatchArm} {arms : List MatchArm} {seen out : List String}
    (h : collectSeen t (arm :: arms) seen = some out) :
    patternAllowed t arm.pattern.kind ∧
      collectSeen t arms ((seenKey arm.pattern.kind).toList ++ seen) = some out := by
  simp only [collectSeen] at h
  split at h
  · rename_i k
    exact ⟨by simp [k, patternAllowed], by simpa [k, seenKey] using h⟩
  · rename_i b k
    exact ⟨by simp [k, patternAllowed], by simpa [k, seenKey] using h⟩
  · rename_i k
    exact ⟨by simp [k, patternAllowed], by simpa [k, seenKey] using h⟩
  · rename_i present k
    split at h
    · exact ⟨by simp [k, patternAllowed], by simpa [k, seenKey] using h⟩
    · cases h
  · rename_i ok k
    split at h
    · exact ⟨by simp [k, patternAllowed], by simpa [k, seenKey] using h⟩
    · cases h
  · rename_i typeName variant k
    split at h
    · exact ⟨by simp [k, patternAllowed], by simpa [k, seenKey] using h⟩
    · cases h
  · rename_i i k
    exact ⟨by simp [k, patternAllowed], by simpa [k, seenKey] using h⟩
  · rename_i s k
    exact ⟨by simp [k, patternAllowed], by simpa [k, seenKey] using h⟩

/-- The whole loop: every pattern is allowed, and a string is in the finished set
    only if it was there before or some arm added it. -/
theorem collectSeen_spec {t : Ty} {arms : List MatchArm} {seen out : List String}
    (h : collectSeen t arms seen = some out) :
    (∀ arm ∈ arms, patternAllowed t arm.pattern.kind) ∧
      ∀ key ∈ out, key ∈ seen ∨ ∃ arm ∈ arms, seenKey arm.pattern.kind = some key := by
  induction arms generalizing seen with
  | nil =>
    simp only [collectSeen, Option.some.injEq] at h
    subst h
    exact ⟨by simp, fun key hkey => Or.inl hkey⟩
  | cons arm arms ih =>
    obtain ⟨allowed, rest⟩ := collectSeen_cons h
    obtain ⟨allAllowed, added⟩ := ih rest
    refine ⟨forall_mem_cons.mpr ⟨allowed, allAllowed⟩, fun key hkey => ?_⟩
    rcases added key hkey with before | ⟨other, mem, isKey⟩
    · rcases mem_append.mp before with here | old
      · exact Or.inr ⟨arm, mem_cons_self, by simpa using here⟩
      · exact Or.inl old
    · exact Or.inr ⟨other, mem_cons_of_mem arm mem, isKey⟩

theorem exhaustive_cases {env : TypeEnv} {t : Ty} {arms : List MatchArm}
    (h : exhaustive env t arms = true) :
    (∃ arm ∈ arms, arm.pattern.kind = .wildcard) ∨
      (∀ arm ∈ arms, patternAllowed t arm.pattern.kind) ∧
        ∃ seen, seenCovers env t seen = true ∧
          ∀ key ∈ seen, ∃ arm ∈ arms, seenKey arm.pattern.kind = some key := by
  unfold exhaustive at h
  split at h
  · rename_i wild
    exact Or.inl (by simpa using wild)
  · cases collected : collectSeen t arms [] with
    | none => simp [collected] at h
    | some seen =>
      obtain ⟨allowed, added⟩ := collectSeen_spec collected
      refine Or.inr ⟨allowed, seen, by simpa [collected] using h, fun key hkey => ?_⟩
      simpa using added key hkey

/-! ## Coverage by patterns of the type's own kind -/

/-- Some arm has this kind of pattern. -/
def HasPattern (arms : List MatchArm) (kind : PatternKind) : Prop :=
  ∃ arm ∈ arms, arm.pattern.kind = kind

/-- Every value of the type is named by a pattern of the type's own kind: an
    `Option` has a `some` pattern, unless its payload type has no value, and a
    `none` or `nil` pattern; an enum has, for each variant, an enum pattern that
    names this enum or none. Other types need nothing beyond acceptance. -/
def Covering (env : TypeEnv) (t : Ty) (arms : List MatchArm) : Prop :=
  HasPattern arms .wildcard ∨
    match t with
    | .option a =>
        (HasValue env a → HasPattern arms (.option true)) ∧
          (HasPattern arms (.option false) ∨ HasPattern arms .nil)
    | .enum name =>
        ∀ decl, env.enumDecl name = some decl → ∀ variant ∈ decl.variants,
          HasPattern arms (.enum "" variant) ∨ HasPattern arms (.enum name variant)
    | _ => True

/-! ## Which patterns match which values -/

section Matching

variable {p : Pattern}

attribute [local simp] matchPattern in
theorem matchPattern_absent :
    matchPattern .absent p = true ↔
      p.kind = .wildcard ∨ p.kind = .nil ∨ p.kind = .option false := by
  cases k : p.kind <;> simp [matchPattern, k]

theorem matchPattern_present {inner : Value} :
    matchPattern (.present inner) p = true ↔ p.kind = .wildcard ∨ p.kind = .option true := by
  cases k : p.kind <;> simp [matchPattern, k]

theorem matchPattern_enum {name variant : String} :
    matchPattern (.enum name variant) p = true ↔
      p.kind = .wildcard ∨ p.kind = .enum "" variant ∨ p.kind = .enum name variant := by
  cases k : p.kind with
  | enum typeName found =>
    simp only [matchPattern, k, Bool.and_eq_true, beq_iff_eq, Bool.or_eq_true, reduceCtorEq,
      PatternKind.enum.injEq, false_or]
    constructor
    · rintro ⟨rfl, rfl | rfl⟩
      · exact Or.inl ⟨rfl, rfl⟩
      · exact Or.inr ⟨rfl, rfl⟩
    · rintro (⟨rfl, rfl⟩ | ⟨rfl, rfl⟩)
      · exact ⟨rfl, Or.inl rfl⟩
      · exact ⟨rfl, Or.inr rfl⟩
  | _ => simp [matchPattern, k]

theorem matchPattern_bool {b : Bool} (h : p.kind = .bool b) :
    matchPattern (.bool b) p = true := by
  simp [matchPattern, h]

theorem matchPattern_nil (h : p.kind = .nil) : matchPattern .nil p = true := by
  simp [matchPattern, h]

theorem matchPattern_result {ok : Bool} {inner : Value} (h : p.kind = .result ok) :
    matchPattern (.result ok inner) p = true := by
  simp [matchPattern, h]

theorem matchPattern_wildcard {v : Value} (h : p.kind = .wildcard) : matchPattern v p = true := by
  simp [matchPattern, h]

end Matching

/-! ## Reading the coverage set back -/

variable {kind : PatternKind}

theorem seenKey_of_no_colon {key : String} (h : seenKey kind = some key)
    (plain : ':' ∉ key.toList) :
    (∀ i, kind ≠ .int i) ∧ ∀ s, kind ≠ .string s := by
  constructor
  · rintro i rfl
    have hkey : toString i.toInt ++ ":" = key := by simpa [seenKey] using h
    exact plain (by rw [← hkey]; simp)
  · rintro s rfl
    have hkey : "0:" ++ s = key := by simpa [seenKey] using h
    exact plain (by rw [← hkey]; simp)

/-- At a type with no patterns of its own kind, `true` and `false` stand for the
    boolean patterns and `nil` for the nil pattern. -/
theorem kind_of_seenKey {t : Ty} {key : String} (allowed : patternAllowed t kind)
    (h : seenKey kind = some key) (plain : ':' ∉ key.toList) (notOption : ∀ a, t ≠ .option a)
    (notEnum : ∀ name, t ≠ .enum name) :
    (∃ b, kind = .bool b ∧ toString b = key) ∨ (kind = .nil ∧ key = "nil") ∨
      ∃ ok, kind = .result ok ∧ (if ok then "ok" else "err") = key := by
  obtain ⟨notInt, notString⟩ := seenKey_of_no_colon h plain
  cases kind with
  | wildcard => simp [seenKey] at h
  | bool b => exact Or.inl ⟨b, rfl, by simpa [seenKey] using h⟩
  | nil => exact Or.inr (Or.inl ⟨rfl, by simpa [seenKey] using h.symm⟩)
  | option present =>
    obtain ⟨a, rfl⟩ := allowed
    exact absurd rfl (notOption a)
  | result ok => exact Or.inr (Or.inr ⟨ok, rfl, by simpa [seenKey] using h⟩)
  | enum typeName variant =>
    obtain ⟨name, rfl⟩ := allowed
    exact absurd rfl (notEnum name)
  | int i => exact absurd rfl (notInt i)
  | string s => exact absurd rfl (notString s)

section Accepted

variable {env : TypeEnv} {arms : List MatchArm} {seen : List String}

theorem hasBool_of_seen (allowed : ∀ arm ∈ arms, patternAllowed .bool arm.pattern.kind)
    (added : ∀ key ∈ seen, ∃ arm ∈ arms, seenKey arm.pattern.kind = some key) (b : Bool)
    (h : toString b ∈ seen) : HasPattern arms (.bool b) := by
  obtain ⟨arm, mem, isKey⟩ := added (toString b) h
  have plain : ':' ∉ (toString b).toList := by cases b <;> decide
  rcases kind_of_seenKey (allowed arm mem) isKey plain (by simp) (by simp) with
    ⟨c, kind, same⟩ | ⟨-, isNil⟩ | ⟨ok, -, same⟩
  · have hc : c = b := by revert same; cases b <;> cases c <;> decide
    exact ⟨arm, mem, hc ▸ kind⟩
  · exact absurd isNil (by cases b <;> decide)
  · exact absurd same (by cases b <;> cases ok <;> decide)

theorem hasNil_of_seen (allowed : ∀ arm ∈ arms, patternAllowed .nil arm.pattern.kind)
    (added : ∀ key ∈ seen, ∃ arm ∈ arms, seenKey arm.pattern.kind = some key)
    (h : "nil" ∈ seen) : HasPattern arms .nil := by
  obtain ⟨arm, mem, isKey⟩ := added "nil" h
  rcases kind_of_seenKey (allowed arm mem) isKey (by decide) (by simp) (by simp) with
    ⟨c, -, same⟩ | ⟨kind, -⟩ | ⟨ok, -, same⟩
  · exact absurd same (by cases c <;> decide)
  · exact ⟨arm, mem, kind⟩
  · exact absurd same (by cases ok <;> decide)

theorem hasResult_of_seen {a b : Ty}
    (allowed : ∀ arm ∈ arms, patternAllowed (.result a b) arm.pattern.kind)
    (added : ∀ key ∈ seen, ∃ arm ∈ arms, seenKey arm.pattern.kind = some key) (ok : Bool)
    (h : (if ok then "ok" else "err") ∈ seen) : HasPattern arms (.result ok) := by
  obtain ⟨arm, mem, isKey⟩ := added _ h
  have plain : ':' ∉ (if ok then "ok" else "err").toList := by cases ok <;> decide
  rcases kind_of_seenKey (allowed arm mem) isKey plain (by simp) (by simp) with
    ⟨c, -, same⟩ | ⟨-, isNil⟩ | ⟨found, kind, same⟩
  · exact absurd same (by cases c <;> cases ok <;> decide)
  · exact absurd isNil (by cases ok <;> decide)
  · have hf : found = ok := by revert same; cases ok <;> cases found <;> decide
    exact ⟨arm, mem, hf ▸ kind⟩

end Accepted

/-! ## Exhaustiveness at run time -/

/-- Every value of the type makes the match execute an arm. -/
def AlwaysMatched (env : TypeEnv) (t : Ty) (arms : List MatchArm) : Prop :=
  ∀ v, HasType env v t → (selectArm v arms).isSome = true

section Covered

variable {env : TypeEnv} {t : Ty} {arms : List MatchArm}

theorem alwaysMatched_of_wildcard (h : HasPattern arms .wildcard) : AlwaysMatched env t arms := by
  obtain ⟨arm, mem, kind⟩ := h
  exact fun v _ => selectArm_isSome_iff.mpr ⟨arm, mem, matchPattern_wildcard kind⟩

/-- An `Option` match executes an arm for every value exactly when both of the
    type's values have a pattern. -/
theorem option_alwaysMatched_iff {a : Ty} (noWildcard : ¬ HasPattern arms .wildcard) :
    AlwaysMatched env (.option a) arms ↔
      (HasValue env a → HasPattern arms (.option true)) ∧
        (HasPattern arms (.option false) ∨ HasPattern arms .nil) := by
  constructor
  · intro always
    constructor
    · rintro ⟨inner, payload⟩
      obtain ⟨arm, mem, matched⟩ := selectArm_isSome_iff.mp (always _ (.present inner a payload))
      rcases matchPattern_present.mp matched with wild | isSome
      · exact absurd ⟨arm, mem, wild⟩ noWildcard
      · exact ⟨arm, mem, isSome⟩
    · obtain ⟨arm, mem, matched⟩ := selectArm_isSome_iff.mp (always _ (.absent a))
      rcases matchPattern_absent.mp matched with wild | isNil | isNone
      · exact absurd ⟨arm, mem, wild⟩ noWildcard
      · exact Or.inr ⟨arm, mem, isNil⟩
      · exact Or.inl ⟨arm, mem, isNone⟩
  · rintro ⟨somes, nones⟩ v typed
    apply selectArm_isSome_iff.mpr
    rcases typed.option_cases with rfl | ⟨inner, rfl, payload⟩
    · rcases nones with ⟨arm, mem, kind⟩ | ⟨arm, mem, kind⟩
      · exact ⟨arm, mem, matchPattern_absent.mpr (Or.inr (Or.inr kind))⟩
      · exact ⟨arm, mem, matchPattern_absent.mpr (Or.inr (Or.inl kind))⟩
    · obtain ⟨arm, mem, kind⟩ := somes ⟨inner, payload⟩
      exact ⟨arm, mem, matchPattern_present.mpr (Or.inr kind)⟩

/-- An enum match executes an arm for every value exactly when every variant has
    a pattern that names this enum or no enum. -/
theorem enum_alwaysMatched_iff {name : String} (noWildcard : ¬ HasPattern arms .wildcard) :
    AlwaysMatched env (.enum name) arms ↔
      ∀ decl, env.enumDecl name = some decl → ∀ variant ∈ decl.variants,
        HasPattern arms (.enum "" variant) ∨ HasPattern arms (.enum name variant) := by
  constructor
  · intro always decl declared variant member
    have hname : decl.name = name := by simpa using find?_some declared
    subst hname
    obtain ⟨arm, mem, matched⟩ :=
      selectArm_isSome_iff.mp (always _ (.enum decl variant declared member))
    rcases matchPattern_enum.mp matched with wild | bare | named
    · exact absurd ⟨arm, mem, wild⟩ noWildcard
    · exact Or.inl ⟨arm, mem, bare⟩
    · exact Or.inr ⟨arm, mem, named⟩
  · intro covered v typed
    obtain ⟨decl, variant, declared, member, rfl⟩ := typed.enum_cases
    apply selectArm_isSome_iff.mpr
    rcases covered decl declared variant member with ⟨arm, mem, kind⟩ | ⟨arm, mem, kind⟩
    · exact ⟨arm, mem, matchPattern_enum.mpr (Or.inr (Or.inl kind))⟩
    · exact ⟨arm, mem, matchPattern_enum.mpr (Or.inr (Or.inr kind))⟩

/-- At the other types acceptance is enough: the strings the test asks for were
    added by patterns that match. -/
theorem alwaysMatched_of_accepted (accepted : exhaustive env t arms = true)
    (notOption : ∀ a, t ≠ .option a) (notEnum : ∀ name, t ≠ .enum name) :
    AlwaysMatched env t arms := by
  rcases exhaustive_cases accepted with wild | ⟨allowed, seen, covers, added⟩
  · exact alwaysMatched_of_wildcard wild
  · intro v typed
    apply selectArm_isSome_iff.mpr
    cases t with
    | option a => exact absurd rfl (notOption a)
    | enum name => exact absurd rfl (notEnum name)
    | bool =>
      simp only [seenCovers, Bool.and_eq_true, contains_iff_mem] at covers
      rcases typed.bool_cases with rfl | rfl
      · obtain ⟨arm, mem, kind⟩ := hasBool_of_seen allowed added true covers.1
        exact ⟨arm, mem, matchPattern_bool kind⟩
      · obtain ⟨arm, mem, kind⟩ := hasBool_of_seen allowed added false covers.2
        exact ⟨arm, mem, matchPattern_bool kind⟩
    | nil =>
      simp only [seenCovers, contains_iff_mem] at covers
      obtain ⟨arm, mem, kind⟩ := hasNil_of_seen allowed added covers
      exact ⟨arm, mem, typed.nil_cases ▸ matchPattern_nil kind⟩
    | result a b =>
      simp only [seenCovers, Bool.and_eq_true, contains_iff_mem] at covers
      obtain ⟨ok, inner, rfl⟩ := typed.result_cases
      have inSeen : (if ok then "ok" else "err") ∈ seen := by
        cases ok
        · exact covers.2
        · exact covers.1
      obtain ⟨arm, mem, kind⟩ := hasResult_of_seen allowed added ok inSeen
      exact ⟨arm, mem, matchPattern_result kind⟩
    | _ => simp [seenCovers] at covers

end Covered

/-- An accepted match executes an arm for every value of the scrutinee's type
    exactly when its patterns cover the type by kind: `true` and `false` do not
    stand in for `some` and `none`, nor a pattern of another enum for a variant. -/
theorem alwaysMatched_iff_covering {env : TypeEnv} {t : Ty} {arms : List MatchArm}
    (accepted : exhaustive env t arms = true) :
    AlwaysMatched env t arms ↔ Covering env t arms := by
  by_cases wild : HasPattern arms .wildcard
  · exact ⟨fun _ => Or.inl wild, fun _ => alwaysMatched_of_wildcard wild⟩
  · cases t with
    | option a =>
      rw [option_alwaysMatched_iff wild]
      exact ⟨fun h => Or.inr h, fun h => h.resolve_left wild⟩
    | enum name =>
      rw [enum_alwaysMatched_iff wild]
      exact ⟨fun h => Or.inr h, fun h => h.resolve_left wild⟩
    | _ =>
      exact ⟨fun _ => Or.inr trivial,
        fun _ => alwaysMatched_of_accepted accepted (by simp) (by simp)⟩

/-- An enum with two variants, for the runs below. -/
def colorEnv : TypeEnv where
  enums := [{ name := "Color", variants := ["Red", "Green"] }]

/-- `match color { Red => {} Color.Green => {} }`. -/
def colorArms : List MatchArm :=
  [.mk { kind := .enum "" "Red" } [], .mk { kind := .enum "Color" "Green" } []]

theorem colorArms_alwaysMatched :
    exhaustive colorEnv (.enum "Color") colorArms = true ∧
      AlwaysMatched colorEnv (.enum "Color") colorArms := by
  have accepted : exhaustive colorEnv (.enum "Color") colorArms = true := by decide
  refine ⟨accepted, (alwaysMatched_iff_covering accepted).mpr (Or.inr ?_)⟩
  intro decl declared variant member
  have hdecl : decl.variants = ["Red", "Green"] := by
    have found : colorEnv.enumDecl "Color" = some { name := "Color", variants := ["Red", "Green"] } :=
      rfl
    rw [found] at declared
    rw [← Option.some.inj declared]
  rw [hdecl] at member
  rcases mem_cons.mp member with rfl | member
  · exact Or.inl ⟨_, mem_cons_self, rfl⟩
  · obtain rfl : variant = "Green" := by simpa using member
    exact Or.inr ⟨_, mem_cons_of_mem _ mem_cons_self, rfl⟩

/-- `match option { true => {} false => {} }`: the boolean patterns put `true` and
    `false` into the coverage set, and no value of an `Option` matches them. -/
def booleanArms : List MatchArm :=
  [.mk { kind := .bool true } [], .mk { kind := .bool false } []]

theorem booleanArms_accepted_for_option :
    exhaustive {} (.option .int) booleanArms = true ∧
      HasType {} (.present (.int 0)) (.option .int) ∧
      selectArm (.present (.int 0)) booleanArms = none :=
  ⟨by decide, .present _ _ (.int 0), rfl⟩

end Kryndel
