import Kryndel.Checker.TypeEnv
import Kryndel.Systems.BoundedWalk

/-!
# Public surfaces

`ensurePublicType` looks through a type for private declarations: through its arguments, and
through the fields of its structs at their types in the instance. A private declaration is
found wherever it is named. The walk stops after 128 levels and then says no, so a type that
leads back to itself is never public.
-/

namespace Kryndel

open BoundedWalk List

/-! ## Declarations -/

/-- A declaration of a type, by its name. -/
inductive TypeDecl where
  | struct (name : String)
  | enum (name : String)
deriving DecidableEq, Repr

/-- Is a declaration private, to those who are not in its module? -/
def TypeDecl.isPrivate (env : TypeEnv) : TypeDecl → Bool
  | .struct name => (env.structDecl name).any fun decl => !(decl.isPublic || decl.module == "")
  | .enum name => (env.enumDecl name).any fun decl => !(decl.isPublic || decl.module == "")

/-- Is there such a declaration, and are its fields resolved? -/
def TypeDecl.resolved (env : TypeEnv) : TypeDecl → Bool
  | .struct name => (env.structDecl name).any fun decl => decl.fields.all (·.type.isSome)
  | .enum name => (env.enumDecl name).isSome

/-- The declaration that a type is an instance of. -/
def Ty.decl : Ty → Option TypeDecl
  | .struct name _ => some (.struct name)
  | .enum name => some (.enum name)
  | _ => none

mutual

/-- The declarations that a type names. -/
def Ty.mentions : Ty → List TypeDecl
  | .array a | .option a | .channel a | .thread a | .set a | .actor a | .shared a => a.mentions
  | .result a b | .map a b => a.mentions ++ b.mentions
  | .struct name params => .struct name :: allMentions params
  | .enum name => [.enum name]
  | .function params ret => allMentions params ++ ret.mentions
  | _ => []

/-- The declarations that some types name. -/
def allMentions : List Ty → List TypeDecl
  | [] => []
  | t :: ts => t.mentions ++ allMentions ts

end

/-- The declarations that can be reached from a type: those it names, and those that the
    fields of a struct among them name. -/
inductive Exposes (env : TypeEnv) (t : Ty) : TypeDecl → Prop where
  | here (d : TypeDecl) (h : d ∈ t.mentions) : Exposes env t d
  | field (decl : StructDecl) (field : FieldDecl) (fieldType : Ty) (d : TypeDecl)
      (h : Exposes env t (.struct decl.name)) (declared : env.structDecl decl.name = some decl)
      (member : field ∈ decl.fields) (typed : field.type = some fieldType)
      (named : d ∈ fieldType.mentions) : Exposes env t d

variable {d : TypeDecl}

theorem mem_allMentions {ts : List Ty} :
    d ∈ allMentions ts ↔ ∃ t ∈ ts, d ∈ t.mentions := by
  induction ts with
  | nil => simp [allMentions]
  | cons t ts ih => simp [allMentions, ih]

theorem mem_mentions {t : Ty} :
    d ∈ t.mentions ↔ t.decl = some d ∨ ∃ u ∈ t.arguments, d ∈ u.mentions := by
  cases t <;> simp [Ty.mentions, Ty.decl, Ty.arguments, mem_allMentions, eq_comm, or_and_right,
    exists_or]

/-! ## Parts -/

/-- The types of the fields of an instance, where they are resolved. -/
def TypeEnv.fieldTypes (env : TypeEnv) (t : Ty) : List Ty :=
  match t.decl with
  | some (.struct name) =>
      match env.structDecl name with
      | some decl => decl.fields.filterMap (structFieldType env t)
      | none => []
  | _ => []

/-- What the walk goes on to: the arguments of a type and the types of its fields. -/
def TypeEnv.parts (env : TypeEnv) (t : Ty) : List Ty := t.arguments ++ env.fieldTypes t

/-- What the walk checks of a type. -/
def TypeEnv.visible (env : TypeEnv) (t : Ty) : Bool :=
  t.decl.all fun d => d.resolved env && !d.isPrivate env

theorem all_fields_iff (env : TypeEnv) (t : Ty) (fields : List FieldDecl) (check : Ty → Bool) :
    (fields.all fun field =>
      match structFieldType env t field with
      | some fieldType => check fieldType
      | none => false) = true ↔
    fields.all (·.type.isSome) = true ∧
      ∀ u ∈ fields.filterMap (structFieldType env t), check u = true := by
  induction fields with
  | nil => simp
  | cons field fields ih =>
    rw [all_cons, all_cons, Bool.and_eq_true, Bool.and_eq_true, ih,
      ← structFieldType_isSome env t field]
    cases hfield : structFieldType env t field with
    | none => simp
    | some fieldType => simp [hfield, and_left_comm]

theorem ensurePublicTypeAt_eq (env : TypeEnv) (n : Nat) (t : Ty) :
    ensurePublicTypeAt env n t = walk env.visible env.parts n t := by
  induction n generalizing t with
  | zero => rfl
  | succ n ih =>
    have hfun : ensurePublicTypeAt env n = walk env.visible env.parts n := funext ih
    rw [Bool.eq_iff_iff, walk_succ, ← hfun]
    cases t with
    | struct name params =>
      cases hdecl : env.structDecl name with
      | none =>
        simp [ensurePublicTypeAt, TypeEnv.visible, Ty.decl, TypeDecl.resolved, hdecl]
      | some decl =>
        have hfields := all_fields_iff env (.struct name params) decl.fields
          (ensurePublicTypeAt env n)
        simp only [ensurePublicTypeAt, hdecl, Bool.and_eq_true]
        refine Iff.trans (and_congr_right fun _ => hfields) ?_
        simp only [TypeEnv.visible, Ty.decl, TypeDecl.resolved, TypeDecl.isPrivate, TypeEnv.parts,
          TypeEnv.fieldTypes, Ty.arguments, hdecl, mem_append, all_eq_true,
          Option.all_some, Option.any_some]
        grind
    | enum name =>
      cases hdecl : env.enumDecl name <;>
        simp [ensurePublicTypeAt, TypeEnv.visible, Ty.decl, TypeDecl.resolved, TypeDecl.isPrivate,
          TypeEnv.parts, TypeEnv.fieldTypes, Ty.arguments, hdecl]
    | function params ret =>
      simp only [ensurePublicTypeAt, TypeEnv.visible, Ty.decl, TypeEnv.parts, TypeEnv.fieldTypes,
        Ty.arguments, mem_append, Bool.and_eq_true, all_eq_true]
      grind
    | _ =>
      simp [ensurePublicTypeAt, TypeEnv.visible, Ty.decl, TypeEnv.parts, TypeEnv.fieldTypes,
        Ty.arguments]

/-! ## Fields of an instance -/

section Substitution

variable (subst : TypeParams)

theorem lookup_mentions {name : String} {t : Ty} (h : subst.lookup name = some t)
    (hd : d ∈ t.mentions) : d ∈ allMentions (subst.map (·.2)) := by
  obtain ⟨front, rest, rfl, -⟩ := lookup_eq_some_iff.mp h
  rw [mem_allMentions]
  exact ⟨t, by simp, hd⟩

mutual

theorem mentions_substituteTypeAt (n : Nat) (t : Ty) (d : TypeDecl) :
    (d ∈ t.mentions → d ∈ (substituteTypeAt subst n t).mentions) ∧
      (d ∈ (substituteTypeAt subst n t).mentions →
        d ∈ t.mentions ∨ d ∈ allMentions (subst.map (·.2))) := by
  cases n with
  | zero =>
    rw [substituteTypeAt]
    exact ⟨id, Or.inl⟩
  | succ n =>
    cases t with
    | generic name constraint =>
      refine ⟨by simp [Ty.mentions], ?_⟩
      rw [substituteTypeAt]
      split
      · simp [Ty.mentions]
      · rename_i replacement hreplacement
        split
        · split
          · rename_i target htarget
            split
            · exact fun hd => Or.inr (lookup_mentions subst hreplacement hd)
            · intro hd
              rcases (mentions_substituteTypeAt n target d).2 hd with hd | hd
              · exact Or.inr (lookup_mentions subst htarget hd)
              · exact Or.inr hd
          · exact fun hd => Or.inr (lookup_mentions subst hreplacement hd)
        · exact fun hd => Or.inr (lookup_mentions subst hreplacement hd)
    | array a | option a | channel a | thread a | set a | actor a | shared a =>
      simpa only [substituteTypeAt, Ty.mentions] using mentions_substituteTypeAt n a d
    | result a b | map a b =>
      have ha := mentions_substituteTypeAt n a d
      have hb := mentions_substituteTypeAt n b d
      simp only [substituteTypeAt, Ty.mentions, mem_append]
      grind
    | struct name params =>
      have hparams := mentions_substituteTypesAt n params d
      simp only [substituteTypeAt, Ty.mentions, mem_cons]
      grind
    | function params ret =>
      have hparams := mentions_substituteTypesAt n params d
      have hret := mentions_substituteTypeAt n ret d
      simp only [substituteTypeAt, Ty.mentions, mem_append]
      grind
    | _ =>
      rw [substituteTypeAt]
      · exact ⟨id, Or.inl⟩
      all_goals simp
termination_by (n, sizeOf t)

theorem mentions_substituteTypesAt (n : Nat) (ts : List Ty) (d : TypeDecl) :
    (d ∈ allMentions ts → d ∈ allMentions (substituteTypesAt subst n ts)) ∧
      (d ∈ allMentions (substituteTypesAt subst n ts) →
        d ∈ allMentions ts ∨ d ∈ allMentions (subst.map (·.2))) := by
  cases ts with
  | nil => simp [substituteTypesAt, allMentions]
  | cons t ts =>
    have ht := mentions_substituteTypeAt n t d
    have hts := mentions_substituteTypesAt n ts d
    simp only [substituteTypesAt, allMentions, mem_append]
    grind
termination_by (n, sizeOf ts)

end

end Substitution

theorem mentions_structFieldType {env : TypeEnv} {t fieldType u : Ty} {field : FieldDecl}
    (hfield : field.type = some fieldType) (hu : structFieldType env t field = some u)
    (d : TypeDecl) : (d ∈ fieldType.mentions → d ∈ u.mentions) ∧
      (d ∈ u.mentions → d ∈ fieldType.mentions ∨ d ∈ t.mentions) := by
  unfold structFieldType at hu
  split at hu
  · rename_i name params
    split at hu
    · split at hu
      · rename_i decl hdecl hlength
        rw [hfield, Option.map_some, Option.some.injEq] at hu
        rw [← hu, substituteType]
        obtain ⟨hkeeps, hadds⟩ := mentions_substituteTypeAt
          ((decl.typeParams.map (·.name)).zip params) 129 fieldType d
        refine ⟨hkeeps, fun hd => (hadds hd).imp_right ?_⟩
        rw [map_snd_zip (by simp [hlength]), Ty.mentions]
        exact mem_cons_of_mem _
      · obtain rfl := Option.some.inj (hfield.symm.trans hu)
        exact ⟨id, Or.inl⟩
    · obtain rfl := Option.some.inj (hfield.symm.trans hu)
      exact ⟨id, Or.inl⟩
  · obtain rfl := Option.some.inj (hfield.symm.trans hu)
    exact ⟨id, Or.inl⟩

theorem mem_fieldTypes {env : TypeEnv} {t u : Ty} (h : u ∈ env.fieldTypes t) :
    ∃ name decl field, t.decl = some (.struct name) ∧ env.structDecl name = some decl ∧
      field ∈ decl.fields ∧ structFieldType env t field = some u := by
  rw [TypeEnv.fieldTypes] at h
  split at h
  · rename_i name hname
    split at h
    · rename_i decl hdecl
      obtain ⟨field, hmem, hfield⟩ := mem_filterMap.mp h
      exact ⟨name, decl, field, hname, hdecl, hmem, hfield⟩
    · cases h
  · cases h

theorem fieldTypes_of_struct {env : TypeEnv} {t : Ty} {name : String} {decl : StructDecl}
    (ht : t.decl = some (.struct name)) (hdecl : env.structDecl name = some decl) :
    env.fieldTypes t = decl.fields.filterMap (structFieldType env t) := by
  rw [TypeEnv.fieldTypes, ht]
  simp [hdecl]

/-! ## What can be reached -/

section Reach

variable {env : TypeEnv} {t : Ty}

theorem Exposes.of_reaches {u : Ty} (h : Reaches env.parts t u) (hd : d ∈ u.mentions) :
    Exposes env t d := by
  induction h generalizing d with
  | refl => exact Exposes.here d hd
  | @tail u v hreach hstep ih =>
    rcases mem_append.mp hstep with hargument | hfield
    · exact ih (mem_mentions.mpr (Or.inr ⟨v, hargument, hd⟩))
    · obtain ⟨name, decl, field, hname, hdecl, hmem, hv⟩ := mem_fieldTypes hfield
      obtain ⟨fieldType, htype⟩ : ∃ fieldType, field.type = some fieldType := by
        rw [← Option.isSome_iff_exists, ← structFieldType_isSome env u field, hv]
        rfl
      rcases (mentions_structFieldType htype hv d).2 hd with hd | hd
      · have hstruct : Exposes env t (.struct decl.name) := by
          rw [structDecl_name hdecl]
          exact ih (mem_mentions.mpr (Or.inl hname))
        refine Exposes.field decl field fieldType d hstruct ?_ hmem htype hd
        rwa [structDecl_name hdecl]
      · exact ih hd

theorem reaches_of_mentions (u : Ty) (hd : d ∈ u.mentions) :
    ∃ v, Reaches env.parts u v ∧ v.decl = some d := by
  rcases mem_mentions.mp hd with hdecl | ⟨v, hv, hd'⟩
  · exact ⟨u, Relation.ReflTransGen.refl, hdecl⟩
  · have hsize := Ty.sizeOf_argument hv
    obtain ⟨w, hreach, hw⟩ := reaches_of_mentions v hd'
    exact ⟨w, Reaches.step (mem_append_left _ hv) hreach, hw⟩
termination_by sizeOf u

theorem Exposes.reaches (h : Exposes env t d) :
    ∃ u, Reaches env.parts t u ∧ u.decl = some d := by
  induction h with
  | here d hd => exact reaches_of_mentions t hd
  | field decl field fieldType d _ declared member typed named ih =>
    obtain ⟨u, hreach, hdecl⟩ := ih
    obtain ⟨v, hv⟩ : ∃ v, structFieldType env u field = some v := by
      rw [← Option.isSome_iff_exists, structFieldType_isSome, typed]
      rfl
    have hpart : v ∈ env.parts u := by
      refine mem_append_right _ ?_
      rw [fieldTypes_of_struct hdecl declared]
      exact mem_filterMap.mpr ⟨field, member, hv⟩
    obtain ⟨w, hrest, hw⟩ :=
      reaches_of_mentions v ((mentions_structFieldType typed hv d).1 named)
    exact ⟨w, hreach.trans (Reaches.step hpart hrest), hw⟩

theorem reaches_visible_iff : (∀ u, Reaches env.parts t u → env.visible u = true) ↔
    ∀ d, Exposes env t d → d.resolved env = true ∧ d.isPrivate env = false := by
  constructor
  · intro h d hd
    obtain ⟨u, hreach, hdecl⟩ := hd.reaches
    have hvisible := h u hreach
    rw [TypeEnv.visible, hdecl] at hvisible
    simpa using hvisible
  · intro h u hreach
    rw [TypeEnv.visible]
    cases hdecl : u.decl with
    | none => rfl
    | some d =>
      obtain ⟨hresolved, hpublic⟩ :=
        h d (Exposes.of_reaches hreach (mem_mentions.mpr (Or.inl hdecl)))
      simp [hresolved, hpublic]

end Reach

/-! ## Exactness -/

theorem ensurePublicType_iff (env : TypeEnv) (t : Ty) : ensurePublicType env t = true ↔
    ¬ HasPath env.parts 129 t ∧
      ∀ d, Exposes env t d → d.resolved env = true ∧ d.isPrivate env = false := by
  rw [ensurePublicType, ensurePublicTypeAt_eq, walk_iff, reaches_visible_iff]

/-- `ensurePublicType` tells whether no private declaration can be reached, if one can be
    reached, or if all types are resolved and no path through their parts has 129 steps. -/
theorem ensurePublicType_exact_iff (env : TypeEnv) (t : Ty) :
    (ensurePublicType env t = true ↔ ¬ ∃ d, Exposes env t d ∧ d.isPrivate env = true) ↔
      (∃ d, Exposes env t d ∧ d.isPrivate env = true) ∨
        (¬ HasPath env.parts 129 t ∧ ∀ d, Exposes env t d → d.resolved env = true) := by
  rw [ensurePublicType_iff]
  by_cases hprivate : ∃ d, Exposes env t d ∧ d.isPrivate env = true
  · obtain ⟨d, hd, hpriv⟩ := hprivate
    have hfails : ¬ ∀ d, Exposes env t d → d.resolved env = true ∧ d.isPrivate env = false := by
      intro hall
      rw [(hall d hd).2] at hpriv
      cases hpriv
    simp only [hfails, and_false, false_iff, not_not]
    exact ⟨fun h => Or.inl ⟨d, hd, hpriv⟩, fun _ => ⟨d, hd, hpriv⟩⟩
  · have hpublic : ∀ d, Exposes env t d → d.isPrivate env = false := by
      intro d hd
      rw [← Bool.not_eq_true]
      exact fun hpriv => hprivate ⟨d, hd, hpriv⟩
    simp only [hprivate, not_false_eq_true, iff_true, false_or]
    exact and_congr_right fun _ => forall₂_congr fun d hd => and_iff_left (hpublic d hd)

/-- A public struct with an optional field of its own type. -/
def linkedList : TypeEnv where
  structs := [{ name := "Node", isPublic := true, module := "list"
                fields := [{ name := "next", spec := default
                             type := some (.option (.struct "Node" [])) }] }]

theorem linkedList_parts :
    linkedList.parts (.struct "Node" []) = [.option (.struct "Node" [])] := by
  simp [TypeEnv.parts, TypeEnv.fieldTypes, Ty.arguments, Ty.decl, linkedList, TypeEnv.structDecl,
    structFieldType, substituteType, substituteTypeAt, substituteTypesAt]

theorem linkedList_hasPath (n : Nat) : HasPath linkedList.parts n (.struct "Node" []) ∧
    HasPath linkedList.parts n (.option (.struct "Node" [])) := by
  induction n with
  | zero => exact ⟨trivial, trivial⟩
  | succ n ih =>
    refine ⟨⟨.option (.struct "Node" []), ?_, ih.2⟩, ⟨.struct "Node" [], ?_, ih.1⟩⟩
    · rw [linkedList_parts]
      exact mem_singleton_self _
    · exact mem_append_left _ (mem_singleton_self _)

/-- It is refused, and names nothing that is private. -/
theorem linkedList_refused : ¬ (ensurePublicType linkedList (.struct "Node" []) = true ↔
    ¬ ∃ d, Exposes linkedList (.struct "Node" []) d ∧ d.isPrivate linkedList = true) := by
  have hexposed : ∀ d, Exposes linkedList (.struct "Node" []) d → d = .struct "Node" := by
    intro d hd
    induction hd with
    | here d hd => simpa [Ty.mentions, allMentions] using hd
    | field decl field fieldType d _ declared member typed named ih =>
      rw [show decl.name = "Node" by simpa using ih] at declared
      cases declared
      cases mem_singleton.mp member
      cases typed
      simpa [Ty.mentions, allMentions] using named
  intro h
  have haccepted : ensurePublicType linkedList (.struct "Node" []) = true := by
    apply h.mpr
    rintro ⟨d, hd, hpriv⟩
    rw [hexposed d hd] at hpriv
    cases hpriv
  exact ((ensurePublicType_iff _ _).mp haccepted).1 (linkedList_hasPath 129).1

end Kryndel
