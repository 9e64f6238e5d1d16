import Kryndel.Checker.TypeEnv

/-!
# Field types of struct instances

`structFieldType` replaces a struct's parameters by the arguments of an instance. The
walk it uses, `substituteType`, follows a replacement that is itself a parameter once
more, so it agrees with simultaneous substitution only where that second step does
nothing.

A second step leads from a parameter to another type, and from there the walk goes on.
It stops at a type with no second step, or when the levels run out, and then returns
the type it has come to, whatever that is.
-/

namespace Kryndel

/-! ## Simultaneous substitution -/

mutual

/-- Simultaneous substitution: every parameter of the map is replaced, and no
    replacement is looked at again. -/
def Ty.subst (σ : TypeParams) : Ty → Ty
  | .generic name constraint => (σ.lookup name).getD (.generic name constraint)
  | .array a => .array (a.subst σ)
  | .option a => .option (a.subst σ)
  | .result a b => .result (a.subst σ) (b.subst σ)
  | .channel a => .channel (a.subst σ)
  | .thread a => .thread (a.subst σ)
  | .map k v => .map (k.subst σ) (v.subst σ)
  | .set a => .set (a.subst σ)
  | .actor a => .actor (a.subst σ)
  | .shared a => .shared (a.subst σ)
  | .struct name params => .struct name (substAll σ params)
  | .function params ret => .function (substAll σ params) (ret.subst σ)
  | t => t

/-- Simultaneous substitution in some types. -/
def substAll (σ : TypeParams) : List Ty → List Ty
  | [] => []
  | t :: ts => t.subst σ :: substAll σ ts

end

mutual

/-- The parameters in a type, each with the levels that are left at its place when
    there are `n` at the root. -/
def Ty.parameters (n : Nat) : Ty → List (Nat × Ty)
  | .generic name constraint => [(n, .generic name constraint)]
  | .array a | .option a | .channel a | .thread a | .set a | .actor a | .shared a =>
      a.parameters (n - 1)
  | .result a b | .map a b => a.parameters (n - 1) ++ b.parameters (n - 1)
  | .struct _ params => allParameters (n - 1) params
  | .function params ret => allParameters (n - 1) params ++ ret.parameters (n - 1)
  | _ => []

/-- The parameters in some types. -/
def allParameters (n : Nat) : List Ty → List (Nat × Ty)
  | [] => []
  | t :: ts => t.parameters n ++ allParameters n ts

end

/-! ## The second step -/

section Chains

variable (σ : TypeParams)

/-- Where the walk goes on from a parameter: its argument is a parameter too, with an
    argument that is another type. -/
def redirect : Ty → Option Ty
  | .generic name _ =>
      match σ.lookup name with
      | some (.generic next constraint) =>
          match σ.lookup next with
          | some target => if target == .generic next constraint then none else some target
          | none => none
      | _ => none
  | _ => none

/-- The type that `n` steps lead to. -/
def chain : Nat → Ty → Option Ty
  | 0, t => some t
  | n + 1, t => (redirect σ t).bind (chain n)

/-- The walk replaces a parameter by its argument: it has a level for it and does not go
    on from there, or it goes on for all the levels that are left and comes to the
    argument all the same. -/
def Replaced (n : Nat) (t : Ty) : Prop :=
  (0 < n ∧ redirect σ t = none) ∨ chain σ n t = some (t.subst σ)

/-- A parameter whose argument is another type. -/
def Unsettled (t : Ty) : Prop :=
  ∃ name constraint target, t = .generic name constraint ∧ σ.lookup name = some target ∧ target ≠ t

variable {σ}

attribute [local simp] redirect Ty.subst chain substituteTypeAt in
theorem substituteTypeAt_generic (n : Nat) (name constraint : String) :
    substituteTypeAt σ (n + 1) (.generic name constraint) =
      match redirect σ (.generic name constraint) with
      | some t => substituteTypeAt σ n t
      | none => (Ty.generic name constraint).subst σ := by
  simp only [substituteTypeAt, redirect, Ty.subst]
  cases σ.lookup name with
  | none => rfl
  | some replacement =>
    cases replacement with
    | generic next c =>
      dsimp only
      cases σ.lookup next with
      | none => rfl
      | some target =>
        dsimp only
        split <;> rfl
    | _ => rfl

theorem substituteTypeAt_of_chain {n : Nat} {t u : Ty} (h : chain σ n t = some u) :
    substituteTypeAt σ n t = u := by
  induction n generalizing t with
  | zero =>
    simp only [chain, Option.some.injEq] at h
    simpa [substituteTypeAt] using h
  | succ n ih =>
    obtain ⟨next, step, rest⟩ := Option.bind_eq_some_iff.mp h
    cases t with
    | generic name constraint =>
      rw [substituteTypeAt_generic, step]
      exact ih rest
    | _ => cases step

theorem unsettled_of_redirect {t next : Ty} (step : redirect σ t = some next) :
    Unsettled σ (t.subst σ) := by
  cases t with
  | generic name constraint =>
    simp only [redirect, Ty.subst] at step ⊢
    split at step
    · rename_i other c found
      split at step
      · rename_i target bound
        split at step
        · cases step
        · rename_i differs
          refine ⟨other, c, target, by rw [found]; rfl, bound, ?_⟩
          rw [found]
          simpa using differs
      · cases step
    · cases step
  | _ => cases step

theorem settled_of_stop {name constraint : String}
    (stop : redirect σ (.generic name constraint) = none) :
    ¬Unsettled σ ((Ty.generic name constraint).subst σ) := by
  rintro ⟨other, c, target, same, bound, differs⟩
  simp only [Ty.subst] at same differs
  cases found : σ.lookup name with
  | none =>
    rw [found] at same
    cases same
    rw [found] at bound
    cases bound
  | some replacement =>
    rw [found] at same differs
    obtain rfl : replacement = .generic other c := same
    simp only [redirect, found, bound] at stop
    split at stop
    · rename_i equal
      exact differs (by simpa using equal)
    · cases stop

theorem settled_of_chain {n : Nat} {t : Ty} (h : chain σ n t = none) :
    ¬Unsettled σ (substituteTypeAt σ n t) := by
  induction n generalizing t with
  | zero => cases h
  | succ n ih =>
    cases t with
    | generic name constraint =>
      rw [substituteTypeAt_generic]
      cases step : redirect σ (.generic name constraint) with
      | none => exact settled_of_stop step
      | some next =>
        simp only [chain, step, Option.bind_some] at h
        exact ih h
    | _ =>
      rintro ⟨_, _, _, same, -⟩
      simp [substituteTypeAt] at same

theorem substituteTypeAt_parameter_iff (n : Nat) (name constraint : String) :
    substituteTypeAt σ n (.generic name constraint) = (Ty.generic name constraint).subst σ ↔
      Replaced σ n (.generic name constraint) := by
  constructor
  · intro same
    by_cases stop : 0 < n ∧ redirect σ (.generic name constraint) = none
    · exact Or.inl stop
    · right
      cases n with
      | zero => simpa [chain, substituteTypeAt] using same
      | succ n =>
        obtain ⟨next, step⟩ := Option.ne_none_iff_exists'.mp fun none => stop ⟨n.succ_pos, none⟩
        cases walked : chain σ (n + 1) (.generic name constraint) with
        | none => exact absurd (same ▸ unsettled_of_redirect step) (settled_of_chain walked)
        | some u => rw [← same, substituteTypeAt_of_chain walked]
  · rintro (⟨pos, stop⟩ | walked)
    · obtain ⟨m, rfl⟩ := Nat.exists_eq_add_one_of_ne_zero (Nat.ne_of_gt pos)
      rw [substituteTypeAt_generic, stop]
    · exact substituteTypeAt_of_chain walked

end Chains

/-! ## Whole types -/

section Types

variable (σ : TypeParams)

@[simp] theorem substituteTypesAt_zero (ts : List Ty) : substituteTypesAt σ 0 ts = ts := by
  induction ts with
  | nil => simp [substituteTypesAt]
  | cons t ts ih => simp [substituteTypesAt, substituteTypeAt, ih]

mutual

theorem substituteTypeAt_eq_subst_iff (n : Nat) (t : Ty) :
    substituteTypeAt σ n t = t.subst σ ↔ ∀ p ∈ t.parameters n, Replaced σ p.1 p.2 := by
  cases t with
  | generic name constraint =>
    simpa [Ty.parameters] using substituteTypeAt_parameter_iff n name constraint
  | array a | option a | channel a | thread a | set a | actor a | shared a =>
    have inside := substituteTypeAt_eq_subst_iff (n - 1) a
    cases n <;> simpa [substituteTypeAt, Ty.subst, Ty.parameters] using inside
  | result a b | map a b =>
    have first := substituteTypeAt_eq_subst_iff (n - 1) a
    have second := substituteTypeAt_eq_subst_iff (n - 1) b
    simp only [Ty.parameters, List.forall_mem_append, ← first, ← second]
    cases n <;> simp [substituteTypeAt, Ty.subst]
  | struct name params =>
    have inside := substituteTypesAt_eq_substAll_iff (n - 1) params
    cases n <;> simpa [substituteTypeAt, Ty.subst, Ty.parameters] using inside
  | function params ret =>
    have first := substituteTypesAt_eq_substAll_iff (n - 1) params
    have second := substituteTypeAt_eq_subst_iff (n - 1) ret
    simp only [Ty.parameters, List.forall_mem_append, ← first, ← second]
    cases n <;> simp [substituteTypeAt, Ty.subst]
  | _ => cases n <;> simp [substituteTypeAt, Ty.subst, Ty.parameters]

theorem substituteTypesAt_eq_substAll_iff (n : Nat) (ts : List Ty) :
    substituteTypesAt σ n ts = substAll σ ts ↔ ∀ p ∈ allParameters n ts, Replaced σ p.1 p.2 := by
  cases ts with
  | nil => simp [substituteTypesAt, substAll, allParameters]
  | cons t ts =>
    simp only [substituteTypesAt, substAll, allParameters, List.cons.injEq, List.forall_mem_append,
      substituteTypeAt_eq_subst_iff n t, substituteTypesAt_eq_substAll_iff n ts]

end

end Types

/-! ## Fields -/

/-- The arguments of a struct instance, by the parameters of its declaration. -/
def StructDecl.arguments (decl : StructDecl) (args : List Ty) : TypeParams :=
  (decl.typeParams.map (·.name)).zip args

/-- The type of a field of an instance is the simultaneous substitution of the arguments
    in the declared type exactly if the walk replaces every parameter in it. -/
theorem structFieldType_eq_subst_iff {env : TypeEnv} {name : String} {decl : StructDecl}
    {args : List Ty} {field : FieldDecl} {t : Ty} (declared : env.structDecl name = some decl)
    (arity : args.length = decl.typeParams.length) (typed : field.type = some t) :
    structFieldType env (.struct name args) field = some (t.subst (decl.arguments args)) ↔
      ∀ p ∈ t.parameters 129, Replaced (decl.arguments args) p.1 p.2 := by
  simp only [structFieldType, declared, arity, if_true, typed, Option.map_some, Option.some.injEq,
    substituteType]
  exact substituteTypeAt_eq_subst_iff (decl.arguments args) 129 t

/-- `struct Pair[A, B] { first: A }` -/
def pairDecl : StructDecl where
  name := "Pair"
  typeParams := [{ name := "A", constraint := "", tok := default },
    { name := "B", constraint := "", tok := default }]
  fields := [{ name := "first", spec := .named "A" [] default, type := some (.generic "A" "") }]

/-- The environment with that struct. -/
def pairEnv : TypeEnv := { structs := [pairDecl] }

/-- The field of `Pair[Int, B]`. -/
theorem pair_int_first : structFieldType pairEnv (.struct "Pair" [.int, .generic "B" ""])
    { name := "first", spec := .named "A" [] default, type := some (.generic "A" "") } =
      some ((Ty.generic "A" "").subst (pairDecl.arguments [.int, .generic "B" ""])) := by
  refine (@structFieldType_eq_subst_iff _ _ pairDecl _ _ _ rfl rfl rfl).mpr ?_
  intro p mem
  obtain rfl : p = (129, .generic "A" "") := by simpa [Ty.parameters] using mem
  exact Or.inl ⟨by decide, rfl⟩

/-- The field of `Pair[B, A]` is read as `A`, the type that 128 steps between the two
    parameters come to. -/
theorem swapped_pair_first : structFieldType pairEnv
    (.struct "Pair" [.generic "B" "", .generic "A" ""])
    { name := "first", spec := .named "A" [] default, type := some (.generic "A" "") } ≠
      some ((Ty.generic "A" "").subst
        (pairDecl.arguments [.generic "B" "", .generic "A" ""])) := by
  have walked : substituteType (pairDecl.arguments [.generic "B" "", .generic "A" ""])
      (.generic "A" "") = .generic "A" "" := substituteTypeAt_of_chain (by decide)
  intro same
  exact absurd (walked.symm.trans (Option.some.inj same)) (by decide)

end Kryndel
