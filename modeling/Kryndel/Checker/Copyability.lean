import Kryndel.Checker.Substitution
import Kryndel.Values.Holding

/-!
# Types that are Copy

The checker tells by its type whether a value may be sent (`typeCopyable`), and the runtime tells
by the value (`copyableValue`). A type that is Copy stays so when its parameters are replaced by
types that are, and its values hold nothing that the runtime would not send, but for actors.
-/

namespace Kryndel

open List

/-! ## Types without parameters -/

/-- A parameter is among those that are named, and a struct has as many arguments as it has
    parameters. -/
def Ty.headFits (env : TypeEnv) (names : List String) : Ty → Bool
  | .generic name _ => names.contains name
  | .struct name params =>
      (env.structDecl name).all fun decl => params.length == decl.typeParams.length
  | _ => true

/-- A type fits at all places, and has no more than the given number of levels. -/
def Ty.fitsAt (env : TypeEnv) (names : List String) : Nat → Ty → Bool
  | 0, _ => false
  | n + 1, t => t.headFits env names && t.arguments.all (fitsAt env names n)

/-- A type without parameters. -/
def Ty.Closed (env : TypeEnv) (t : Ty) : Prop := ∃ n, t.fitsAt env [] n = true

/-- The types of fields are resolved: they are written with the parameters of their struct, and
    are nested no further than the resolver goes (`MaxTypeDepth`). -/
def TypeEnv.Resolved (env : TypeEnv) : Prop :=
  ∀ decl, env.structDecl decl.name = some decl → ∀ field ∈ decl.fields, ∃ a,
    field.type = some a ∧ a.fitsAt env (decl.typeParams.map (·.name)) 129 = true

section Closing

variable {env : TypeEnv} {names : List String} {t a b : Ty} {n m : Nat}

theorem fitsAt_succ : t.fitsAt env names (n + 1) = true ↔
    t.headFits env names = true ∧ ∀ a ∈ t.arguments, a.fitsAt env names n = true := by
  rw [Ty.fitsAt, Bool.and_eq_true, all_eq_true]

theorem fitsAt_mono (h : t.fitsAt env names n = true) (hle : n ≤ m) :
    t.fitsAt env names m = true := by
  induction n generalizing t m with
  | zero => cases h
  | succ n ih =>
    obtain ⟨m, rfl⟩ := Nat.exists_eq_add_of_le' (Nat.lt_of_lt_of_le n.succ_pos hle)
    rw [fitsAt_succ] at h ⊢
    exact ⟨h.1, fun a ha => ih (h.2 a ha) (Nat.le_of_succ_le_succ hle)⟩

variable {ts : List Ty}

theorem exists_levels {P : Nat → Ty → Prop} (hmono : ∀ t n m, P n t → n ≤ m → P m t)
    (h : ∀ t ∈ ts, ∃ n, P n t) : ∃ n, ∀ t ∈ ts, P n t := by
  induction ts with
  | nil => exact ⟨0, by simp⟩
  | cons t ts ih =>
    obtain ⟨n, hn⟩ := h t mem_cons_self
    obtain ⟨m, hm⟩ := ih fun u hu => h u (mem_cons_of_mem _ hu)
    refine ⟨max n m, fun u hu => ?_⟩
    rcases mem_cons.mp hu with rfl | hu
    · exact hmono u n _ hn (Nat.le_max_left _ _)
    · exact hmono u m _ (hm u hu) (Nat.le_max_right _ _)

theorem closed_iff : t.Closed env ↔
    t.headFits env [] = true ∧ ∀ a ∈ t.arguments, a.Closed env := by
  constructor
  · rintro ⟨n, h⟩
    cases n with
    | zero => cases h
    | succ n =>
      obtain ⟨hhead, harguments⟩ := fitsAt_succ.mp h
      exact ⟨hhead, fun a ha => ⟨n, harguments a ha⟩⟩
  · rintro ⟨hhead, harguments⟩
    obtain ⟨n, hn⟩ := exists_levels (P := fun n a => a.fitsAt env [] n = true)
      (fun _ _ _ h hle => fitsAt_mono h hle) harguments
    exact ⟨n + 1, fitsAt_succ.mpr ⟨hhead, hn⟩⟩

theorem substituteTypesAt_eq_map (subst : TypeParams) (n : Nat) (ts : List Ty) :
    substituteTypesAt subst n ts = ts.map (substituteTypeAt subst n) := by
  induction ts with
  | nil => rw [substituteTypesAt, map_nil]
  | cons t ts ih => rw [substituteTypesAt, ih, map_cons]

theorem arguments_substituteTypeAt (env : TypeEnv) (names : List String) (subst : TypeParams)
    (n : Nat) (ht : ∀ name constraint, t ≠ .generic name constraint) :
    (substituteTypeAt subst (n + 1) t).arguments = t.arguments.map (substituteTypeAt subst n) ∧
      (substituteTypeAt subst (n + 1) t).headFits env names = t.headFits env names := by
  cases t with
  | generic name constraint => exact absurd rfl (ht name constraint)
  | array a | option a | channel a | thread a | set a | actor a | shared a | result a b
  | map a b => simp only [substituteTypeAt, Ty.arguments, Ty.headFits, map_cons,
      map_nil, and_self]
  | struct name params | function params ret =>
    simp [substituteTypeAt, substituteTypesAt_eq_map, Ty.arguments, Ty.headFits]
  | _ => rw [substituteTypeAt] <;> simp [Ty.arguments]

theorem substituteTypeAt_of_lookup {subst : TypeParams} {name constraint : String} {u : Ty}
    (hlookup : subst.lookup name = some u) (hu : ∀ name constraint, u ≠ .generic name constraint)
    (n : Nat) : substituteTypeAt subst (n + 1) (.generic name constraint) = u := by
  rw [substituteTypeAt, hlookup]
  cases u with
  | generic name' constraint' => exact absurd rfl (hu name' constraint')
  | _ => rfl

theorem Ty.Closed.not_generic (h : t.Closed env) (name constraint : String) :
    t ≠ .generic name constraint := by
  rintro rfl
  cases (closed_iff.mp h).1

theorem closed_substituteTypeAt {subst : TypeParams}
    (hsubst : ∀ name ∈ names, ∃ u, subst.lookup name = some u ∧ u.Closed env)
    (h : t.fitsAt env names n = true) (hle : n ≤ m) :
    (substituteTypeAt subst m t).Closed env := by
  induction n generalizing t m with
  | zero => cases h
  | succ n ih =>
    obtain ⟨m, rfl⟩ := Nat.exists_eq_add_of_le' (Nat.lt_of_lt_of_le n.succ_pos hle)
    obtain ⟨hhead, harguments⟩ := fitsAt_succ.mp h
    by_cases hgeneric : ∃ name constraint, t = .generic name constraint
    · obtain ⟨name, constraint, rfl⟩ := hgeneric
      obtain ⟨u, hlookup, hu⟩ := hsubst name (by simpa [Ty.headFits] using hhead)
      rwa [substituteTypeAt_of_lookup hlookup hu.not_generic]
    · have hother : ∀ name constraint, t ≠ .generic name constraint :=
        fun name constraint heq => hgeneric ⟨name, constraint, heq⟩
      obtain ⟨hmap, hkeeps⟩ := arguments_substituteTypeAt env [] subst m hother
      refine closed_iff.mpr ⟨?_, ?_⟩
      · rw [hkeeps]
        cases t with
        | generic name constraint => exact absurd rfl (hother name constraint)
        | _ => exact hhead
      · rw [hmap]
        intro a ha
        obtain ⟨b, hb, rfl⟩ := mem_map.mp ha
        exact ih (harguments b hb) (Nat.le_of_succ_le_succ hle)

theorem lookup_zip {names : List String} {name : String} (hlength : ts.length = names.length)
    (hmem : name ∈ names) :
    ∃ u ∈ ts, (names.zip ts).lookup name = some u := by
  induction names generalizing ts with
  | nil => cases hmem
  | cons first names ih =>
    cases ts with
    | nil => cases hlength
    | cons t ts =>
      by_cases heq : name = first
      · exact ⟨t, mem_cons_self, by simp [zip_cons_cons, heq]⟩
      · obtain ⟨u, hu, hlookup⟩ :=
          ih (Nat.succ.inj hlength) ((mem_cons.mp hmem).resolve_left heq)
        refine ⟨u, mem_cons_of_mem _ hu, ?_⟩
        rw [zip_cons_cons, lookup_cons, beq_false_of_ne heq]
        exact hlookup

theorem lookup_zip_none {names : List String} {name : String} (hmem : name ∉ names) :
    (names.zip ts).lookup name = none := by
  refine lookup_eq_none_iff.mpr fun entry hentry => ?_
  have hfirst := (of_mem_zip hentry).1
  rw [bne_iff_ne]
  rintro rfl
  exact hmem hfirst

theorem closed_structFieldType (henv : env.Resolved) {decl : StructDecl} {params : List Ty}
    (declared : env.structDecl decl.name = some decl) {field : FieldDecl}
    (member : field ∈ decl.fields) (hclosed : (Ty.struct decl.name params).Closed env)
    (hfield : structFieldType env (.struct decl.name params) field = some a) : a.Closed env := by
  obtain ⟨written, hwritten, hfits⟩ := henv decl declared field member
  obtain ⟨hhead, hparams⟩ := closed_iff.mp hclosed
  have hlength : params.length = decl.typeParams.length := by
    simpa [Ty.headFits, declared] using hhead
  rw [structFieldType] at hfield
  simp only [declared, hlength, if_true, hwritten, Option.map_some, Option.some.injEq] at hfield
  subst hfield
  refine closed_substituteTypeAt ?_ hfits (Nat.le_refl _)
  intro name hname
  obtain ⟨u, hu, hlookup⟩ := lookup_zip (by simpa using hlength) hname
  exact ⟨u, hlookup, hparams u hu⟩

theorem Holder.closed (henv : env.Resolved) (h : Holder env t a) (hclosed : t.Closed env) :
    a.Closed env := by
  cases h with
  | field decl params field _ declared member typed _ =>
    exact closed_structFieldType henv declared member hclosed typed
  | _ => exact (closed_iff.mp hclosed).2 a (by simp [Ty.arguments])

end Closing

/-! ## Types that are Copy -/

/-- A type is Copy, with as many levels as the walk may need. -/
def Ty.Copyable (env : TypeEnv) (t : Ty) : Prop := ∃ n, typeCopyableAt env n t = true

section Copying

variable {env : TypeEnv} {t u a b : Ty} {n m : Nat}

variable {name : String} {params : List Ty}

theorem typeCopyableAt_struct :
    typeCopyableAt env (n + 1) (.struct name params) = true ↔
      ∃ decl, env.structDecl name = some decl ∧
        (∀ p ∈ params, typeCopyableAt env n p = true) ∧
        ∀ field ∈ decl.fields, ∃ u, structFieldType env (.struct name params) field = some u ∧
          typeCopyableAt env n u = true := by
  rw [typeCopyableAt_struct_eq]
  cases hdecl : env.structDecl name with
  | none => simp
  | some decl =>
    simp only [Bool.and_eq_true, all_eq_true, Option.some.injEq, exists_eq_left']
    refine and_congr_right fun _ => forall₂_congr fun field _ => ?_
    cases structFieldType env (.struct name params) field with
    | none => simp
    | some u => simp

theorem typeCopyableAt_mono (h : typeCopyableAt env n t = true) (hle : n ≤ m) :
    typeCopyableAt env m t = true := by
  induction n generalizing t m with
  | zero => cases h
  | succ n ih =>
    obtain ⟨m, rfl⟩ := Nat.exists_eq_add_of_le' (Nat.lt_of_lt_of_le n.succ_pos hle)
    have hle' := Nat.le_of_succ_le_succ hle
    cases t with
    | array a | option a | set a | actor a =>
      exact ih (t := a) h hle'
    | result a b | map a b =>
      change (typeCopyableAt env n a && typeCopyableAt env n b) = true at h
      have hboth := Bool.and_eq_true_iff.mp h
      exact Bool.and_eq_true_iff.mpr ⟨ih hboth.1 hle', ih hboth.2 hle'⟩
    | struct name params =>
      obtain ⟨decl, hdecl, hparams, hfields⟩ := typeCopyableAt_struct.mp h
      refine typeCopyableAt_struct.mpr ⟨decl, hdecl, fun p hp => ih (hparams p hp) hle', ?_⟩
      intro field hfield
      obtain ⟨u, hu, hcopy⟩ := hfields field hfield
      exact ⟨u, hu, ih hcopy hle'⟩
    | _ => exact h

theorem copyable_of_eq (h : ∀ n, typeCopyableAt env (n + 1) t = typeCopyableAt env n a) :
    t.Copyable env ↔ a.Copyable env := by
  constructor
  · rintro ⟨n, hn⟩
    cases n with
    | zero => cases hn
    | succ n => exact ⟨n, by rwa [h] at hn⟩
  · rintro ⟨n, hn⟩
    exact ⟨n + 1, by rwa [h]⟩

theorem copyable_of_eq_and
    (h : ∀ n, typeCopyableAt env (n + 1) t = (typeCopyableAt env n a && typeCopyableAt env n b)) :
    t.Copyable env ↔ a.Copyable env ∧ b.Copyable env := by
  constructor
  · rintro ⟨n, hn⟩
    cases n with
    | zero => cases hn
    | succ n =>
      rw [h, Bool.and_eq_true] at hn
      exact ⟨⟨n, hn.1⟩, ⟨n, hn.2⟩⟩
  · rintro ⟨⟨n, hn⟩, ⟨m, hm⟩⟩
    refine ⟨max n m + 1, ?_⟩
    rw [h, Bool.and_eq_true]
    exact ⟨typeCopyableAt_mono hn (Nat.le_max_left _ _),
      typeCopyableAt_mono hm (Nat.le_max_right _ _)⟩

theorem copyable_struct :
    (Ty.struct name params).Copyable env ↔ ∃ decl, env.structDecl name = some decl ∧
      (∀ p ∈ params, p.Copyable env) ∧
      ∀ field ∈ decl.fields, ∃ u, structFieldType env (.struct name params) field = some u ∧
        u.Copyable env := by
  constructor
  · rintro ⟨n, hn⟩
    cases n with
    | zero => cases hn
    | succ n =>
      obtain ⟨decl, hdecl, hparams, hfields⟩ := typeCopyableAt_struct.mp hn
      refine ⟨decl, hdecl, fun p hp => ⟨n, hparams p hp⟩, ?_⟩
      intro field hfield
      obtain ⟨u, hu, hcopy⟩ := hfields field hfield
      exact ⟨u, hu, n, hcopy⟩
  · rintro ⟨decl, hdecl, hparams, hfields⟩
    -- The levels that the arguments need, and those that the types of the fields need.
    obtain ⟨n, hn⟩ := exists_levels (P := fun n p => typeCopyableAt env n p = true)
      (fun _ _ _ h hle => typeCopyableAt_mono h hle) hparams
    have htypes : ∀ u ∈ decl.fields.filterMap (structFieldType env (.struct name params)),
        u.Copyable env := by
      intro u hu
      obtain ⟨field, hfield, hu⟩ := mem_filterMap.mp hu
      obtain ⟨u', hu', hcopy⟩ := hfields field hfield
      cases hu.symm.trans hu'
      exact hcopy
    obtain ⟨m, hm⟩ := exists_levels (P := fun n p => typeCopyableAt env n p = true)
      (fun _ _ _ h hle => typeCopyableAt_mono h hle) htypes
    refine ⟨max n m + 1, typeCopyableAt_struct.mpr ⟨decl, hdecl, ?_, ?_⟩⟩
    · exact fun p hp => typeCopyableAt_mono (hn p hp) (Nat.le_max_left _ _)
    · intro field hfield
      obtain ⟨u, hu, -⟩ := hfields field hfield
      exact ⟨u, hu, typeCopyableAt_mono (hm u (mem_filterMap.mpr ⟨field, hfield, hu⟩))
        (Nat.le_max_right _ _)⟩

theorem Holder.copyable (h : Holder env t a) (ht : t.Copyable env) : a.Copyable env := by
  cases h with
  | array | set | option => exact (copyable_of_eq fun _ => rfl).mp ht
  | ok | key => exact ((copyable_of_eq_and fun _ => rfl).mp ht).1
  | err | value => exact ((copyable_of_eq_and fun _ => rfl).mp ht).2
  | field decl params field _ declared member typed _ =>
    obtain ⟨decl', hdecl', -, hfields⟩ := copyable_struct.mp ht
    cases declared.symm.trans hdecl'
    obtain ⟨u, hu, hcopy⟩ := hfields field member
    cases typed.symm.trans hu
    exact hcopy

theorem Ty.Copyable.sends_or_actor (h : t.Copyable env)
    (hgeneric : ∀ name constraint, t ≠ .generic name constraint) :
    t.sends = true ∨ ∃ a, t = .actor a := by
  obtain ⟨n, hn⟩ := h
  cases n with
  | zero => cases hn
  | succ n =>
    cases t with
    | generic name constraint => exact absurd rfl (hgeneric name constraint)
    | actor a => exact Or.inr ⟨a, rfl⟩
    | channel | thread | webSocket | taskGroup | regex | random | sqlite | tcpSocket
    | tcpListener | udpSocket | ffiLibrary | ffiSymbol | ffiBuffer | function => cases hn
    | _ => exact Or.inl rfl

/-! ## Instances -/

/-- A type is made from another by putting types that are Copy for some that may be. -/
inductive Improves (env : TypeEnv) : Ty → Ty → Prop where
  | here {t u : Ty} (h : t.Copyable env → u.Copyable env) : Improves env t u
  | array {a b : Ty} (h : Improves env a b) : Improves env (.array a) (.array b)
  | option {a b : Ty} (h : Improves env a b) : Improves env (.option a) (.option b)
  | set {a b : Ty} (h : Improves env a b) : Improves env (.set a) (.set b)
  | actor {a b : Ty} (h : Improves env a b) : Improves env (.actor a) (.actor b)
  | result {a a' b b' : Ty} (h : Improves env a a') (h' : Improves env b b') :
      Improves env (.result a b) (.result a' b')
  | map {a a' b b' : Ty} (h : Improves env a a') (h' : Improves env b b') :
      Improves env (.map a b) (.map a' b')
  | struct (name : String) {params params' : List Ty} (hlength : params.length = params'.length)
      (h : ∀ p ∈ params.zip params', Improves env p.1 p.2) :
      Improves env (.struct name params) (.struct name params')

theorem Improves.refl (t : Ty) : Improves env t t := .here id

theorem Improves.struct_map (name : String) (params : List Ty) {f g : Ty → Ty}
    (h : ∀ p ∈ params, Improves env (f p) (g p)) :
    Improves env (.struct name (params.map f)) (.struct name (params.map g)) := by
  refine .struct name (by simp) ?_
  intro p hp
  rw [zip_map', mem_map] at hp
  obtain ⟨q, hq, rfl⟩ := hp
  exact h q hq

/-- A substitution of the same parameters by types that are all Copy makes a type from what
    another makes. -/
theorem improves_substituteTypeAt {subst subst' : TypeParams}
    (hsubst : ∀ name, subst'.lookup name = none ∧ subst.lookup name = none ∨
      ∃ u, subst'.lookup name = some u ∧ u.Closed env ∧ u.Copyable env) (n : Nat) (t : Ty) :
    Improves env (substituteTypeAt subst n t) (substituteTypeAt subst' n t) := by
  induction n generalizing t with
  | zero =>
    rw [substituteTypeAt, substituteTypeAt]
    exact .refl t
  | succ n ih =>
    cases t with
    | generic name constraint =>
      rcases hsubst name with ⟨hnone', hnone⟩ | ⟨u, hlookup, hclosed, hcopy⟩
      · simp only [substituteTypeAt, hnone, hnone']
        exact .refl _
      · rw [substituteTypeAt_of_lookup hlookup hclosed.not_generic]
        exact .here fun _ => hcopy
    | array a => simpa only [substituteTypeAt] using Improves.array (ih a)
    | option a => simpa only [substituteTypeAt] using Improves.option (ih a)
    | set a => simpa only [substituteTypeAt] using Improves.set (ih a)
    | actor a => simpa only [substituteTypeAt] using Improves.actor (ih a)
    | result a b => simpa only [substituteTypeAt] using Improves.result (ih a) (ih b)
    | map a b => simpa only [substituteTypeAt] using Improves.map (ih a) (ih b)
    | struct name params =>
      simp only [substituteTypeAt, substituteTypesAt_eq_map]
      exact .struct_map name params fun p _ => ih p
    | shared a =>
      refine .here fun _ => ⟨1, ?_⟩
      rw [substituteTypeAt]
      rfl
    | channel a | thread a | function params ret =>
      refine .here ?_
      rintro ⟨m, hm⟩
      cases m with
      | zero => cases hm
      | succ m =>
        rw [substituteTypeAt] at hm
        cases hm
    | _ =>
      rw [substituteTypeAt, substituteTypeAt]
      · exact .refl _
      all_goals simp

theorem structFieldType_of_resolved {decl : StructDecl} (hdecl : env.structDecl name = some decl)
    (hlength : params.length = decl.typeParams.length) (field : FieldDecl) :
    structFieldType env (.struct name params) field =
      field.type.map (substituteType ((decl.typeParams.map (·.name)).zip params)) := by
  simp [structFieldType, hdecl, hlength]

theorem Improves.copyable (henv : env.Resolved) (h : Improves env t u) (hclosed : u.Closed env)
    (ht : typeCopyableAt env n t = true) : u.Copyable env := by
  induction n generalizing t u with
  | zero => cases ht
  | succ n ih =>
    have harguments := (closed_iff.mp hclosed).2
    cases h with
    | here h => exact h ⟨n + 1, ht⟩
    | array h | option h | set h | actor h =>
      exact (copyable_of_eq fun _ => rfl).mpr
        (ih h (harguments _ (by simp [Ty.arguments])) ht)
    | result h h' | map h h' =>
      have hboth := Bool.and_eq_true_iff.mp ht
      exact (copyable_of_eq_and fun _ => rfl).mpr
        ⟨ih h (harguments _ (by simp [Ty.arguments])) hboth.1,
          ih h' (harguments _ (by simp [Ty.arguments])) hboth.2⟩
    | @struct name params params' hlength h =>
      obtain ⟨decl, hdecl, hparams, hfields⟩ := typeCopyableAt_struct.mp ht
      have hname : decl.name = name := structDecl_name hdecl
      have harity : params'.length = decl.typeParams.length := by
        simpa [Ty.headFits, hdecl] using (closed_iff.mp hclosed).1
      have hcopies : ∀ p ∈ params', p.Copyable env := by
        intro p hp
        rw [← map_snd_zip (Nat.le_of_eq hlength.symm)] at hp
        obtain ⟨⟨q, p⟩, hpair, rfl⟩ := mem_map.mp hp
        obtain ⟨hq, hp⟩ := of_mem_zip hpair
        exact ih (h _ hpair) (harguments p hp) (hparams q hq)
      refine copyable_struct.mpr ⟨decl, hdecl, hcopies, fun field hfield => ?_⟩
      obtain ⟨v, hv, hcopy⟩ := hfields field hfield
      obtain ⟨written, hwritten, -⟩ := henv decl (hname ▸ hdecl) field hfield
      rw [structFieldType_of_resolved hdecl (hlength.trans harity), hwritten,
        Option.map_some, Option.some.injEq] at hv
      have hv' : structFieldType env (.struct name params') field =
          some (substituteType ((decl.typeParams.map (·.name)).zip params') written) := by
        rw [structFieldType_of_resolved hdecl harity, hwritten, Option.map_some]
      refine ⟨_, hv', ih ?_ ?_ (hv ▸ hcopy)⟩
      · refine improves_substituteTypeAt (fun x => ?_) 129 written
        by_cases hx : x ∈ decl.typeParams.map (·.name)
        · obtain ⟨w, hw, hlookup⟩ := lookup_zip (by simpa using harity) hx
          exact Or.inr ⟨w, hlookup, harguments w hw, hcopies w hw⟩
        · exact Or.inl ⟨lookup_zip_none hx, lookup_zip_none hx⟩
      · subst hname
        exact closed_structFieldType henv hdecl hfield hclosed hv'

end Copying

/-! ## Parameters -/

/-- No trait is declared under the name of a constraint that implies Copy. -/
def TypeEnv.Unshadowed (env : TypeEnv) : Prop :=
  ∀ constraint ∈ ["Copy", "Integer", "Numeric", "Comparable"], env.traitDecl constraint = none

/-- The parameters of a type are replaced by types that satisfy their constraints, and no
    parameter is left. -/
structure Instance (env : TypeEnv) (σ : TypeParams) (t : Ty) : Prop where
  satisfied : ∀ n name constraint, (n, Ty.generic name constraint) ∈ t.parameters 0 →
    ∃ u, σ.lookup name = some u ∧ env.satisfiesConstraint u constraint = true
  closed : (t.subst σ).Closed env

section Instances

variable {env : TypeEnv} {σ : TypeParams} {t u : Ty} {n : Nat}

theorem copyable_of_satisfies (hclear : env.Unshadowed) {name constraint : String}
    (hgeneric : (Ty.generic name constraint).Copyable env)
    (hu : env.satisfiesConstraint u constraint = true) : u.Copyable env := by
  have hconstraint : constraint ∈ ["Copy", "Integer", "Numeric", "Comparable"] := by
    obtain ⟨n, hn⟩ := hgeneric
    cases n with
    | zero => cases hn
    | succ n => simpa [typeCopyableAt_generic, or_assoc] using hn
  unfold TypeEnv.satisfiesConstraint at hu
  rw [hclear constraint hconstraint] at hu
  dsimp only at hu
  by_cases hsame : ∃ name' inherited, u = .generic name' inherited
  · obtain ⟨name', inherited, rfl⟩ := hsame
    refine ⟨1, ?_⟩
    rw [typeCopyableAt_generic]
    simp only [mem_cons, not_mem_nil, or_false] at hconstraint
    unfold satisfiesBuiltinConstraint at hu
    rcases hconstraint with rfl | rfl | rfl | rfl <;> simp at hu ⊢ <;> tauto
  · have hne : ∀ name' inherited, u ≠ .generic name' inherited := fun name' inherited heq =>
      hsame ⟨name', inherited, heq⟩
    rcases mem_cons.mp hconstraint with rfl | hplain
    · exact ⟨129, (satisfiesBuiltinConstraint_copy hne).symm.trans hu⟩
    · refine ⟨1, ?_⟩
      rcases satisfiesBuiltinConstraint_plain hplain hu with
        ⟨name', inherited, rfl⟩ | hu | ⟨n, rfl⟩ | ⟨name', rfl⟩
      · exact absurd rfl (hne name' inherited)
      · simp only [mem_cons, not_mem_nil, or_false] at hu
        rcases hu with rfl | rfl | rfl | rfl | rfl | rfl <;> rfl
      all_goals rfl

mutual

theorem improves_subst (t : Ty)
    (h : ∀ n name constraint, (n, Ty.generic name constraint) ∈ t.parameters 0 →
      (Ty.generic name constraint).Copyable env →
        ((Ty.generic name constraint).subst σ).Copyable env) :
    Improves env t (t.subst σ) := by
  cases t with
  | generic name constraint => exact .here (h 0 name constraint (by simp [Ty.parameters]))
  | array a =>
    exact .array (improves_subst a h)
  | option a =>
    exact .option (improves_subst a h)
  | set a =>
    exact .set (improves_subst a h)
  | actor a =>
    exact .actor (improves_subst a h)
  | result a b =>
    exact .result
      (improves_subst a fun n name c hmem => h n name c (mem_append_left _ hmem))
      (improves_subst b fun n name c hmem => h n name c (mem_append_right _ hmem))
  | map a b =>
    rw [Ty.subst]
    exact .map
      (improves_subst a fun n name c hmem => h n name c (mem_append_left _ hmem))
      (improves_subst b fun n name c hmem => h n name c (mem_append_right _ hmem))
  | struct name params =>
    rw [Ty.subst]
    obtain ⟨hlength, hall⟩ := improves_substAll params h
    exact .struct name hlength hall
  | shared a =>
    exact .here fun _ => ⟨1, rfl⟩
  | channel a | thread a | function params ret =>
    refine .here ?_
    rintro ⟨m, hm⟩
    cases m <;> cases hm
  | _ => exact .refl _
termination_by sizeOf t

theorem improves_substAll (ts : List Ty)
    (h : ∀ n name constraint, (n, Ty.generic name constraint) ∈ allParameters 0 ts →
      (Ty.generic name constraint).Copyable env →
        ((Ty.generic name constraint).subst σ).Copyable env) :
    ts.length = (substAll σ ts).length ∧
      ∀ p ∈ ts.zip (substAll σ ts), Improves env p.1 p.2 := by
  cases ts with
  | nil => simp [substAll]
  | cons t ts =>
    have hhead := improves_subst t fun n name c hmem =>
      h n name c (by rw [allParameters]; exact mem_append_left _ hmem)
    obtain ⟨hlength, hall⟩ := improves_substAll ts fun n name c hmem =>
      h n name c (by rw [allParameters]; exact mem_append_right _ hmem)
    rw [substAll]
    refine ⟨by rw [length_cons, length_cons, hlength], ?_⟩
    intro p hp
    rcases mem_cons.mp hp with rfl | hp
    · exact hhead
    · exact hall p hp
termination_by sizeOf ts

end

theorem Instance.copyable (henv : env.Resolved) (hclear : env.Unshadowed)
    (hinstance : Instance env σ t) (ht : typeCopyableAt env n t = true) :
    (t.subst σ).Copyable env := by
  refine Improves.copyable henv (improves_subst t ?_) hinstance.closed ht
  intro m name constraint hmem hcopy
  obtain ⟨u, hlookup, hu⟩ := hinstance.satisfied m name constraint hmem
  rw [Ty.subst, hlookup, Option.getD_some]
  exact copyable_of_satisfies hclear hcopy hu

theorem HoldsAt.copyable (henv : env.Resolved) (h : HoldsAt env t n u) (ht : t.Copyable env)
    (hclosed : t.Closed env) : u.Copyable env ∧ u.Closed env := by
  induction h with
  | here => exact ⟨ht, hclosed⟩
  | step head rest ih => exact ih (head.copyable ht) (head.closed henv hclosed)

theorem Instance.holds_sends (henv : env.Resolved) (hclear : env.Unshadowed)
    (hinstance : Instance env σ t) (ht : typeCopyableAt env n t = true) {m : Nat}
    (h : HoldsAt env (t.subst σ) m u) : u.sends = true ∨ ∃ a, u = .actor a := by
  obtain ⟨hcopy, hclosed⟩ :=
    h.copyable henv (hinstance.copyable henv hclear ht) hinstance.closed
  exact hcopy.sends_or_actor hclosed.not_generic

theorem Resolved.fieldsTyped (henv : env.Resolved) : env.FieldsTyped := by
  intro decl declared field hfield
  obtain ⟨a, ha, -⟩ := henv decl declared field hfield
  rw [ha]
  rfl

/-- All values of a type that is Copy are sent just when none of its instances can hold an
    actor, or anything more than 128 levels down. Where a trait takes the name of a constraint,
    the types that implement it have to be sent as well. The number of levels of the walk is
    any: its table of nodes lets it go below 128 where it meets a node again. -/
theorem typeCopyable_agrees_iff (henv : env.Resolved) (hinstance : Instance env σ t)
    (ht : typeCopyableAt env n t = true) :
    (∀ v, HasType env v (t.subst σ) → copyableValue v = true) ↔
      ∀ m u, HoldsAt env (t.subst σ) m u → HasValue env u →
        m ≤ 128 ∧ (∀ a, u ≠ .actor a) ∧ (¬env.Unshadowed → u.sends = true) := by
  unfold copyableValue
  rw [copyableValueAt_iff (Resolved.fieldsTyped henv)]
  refine forall₄_congr fun m u hholds hvalue => ?_
  constructor
  · rintro ⟨hlt, hsends⟩
    refine ⟨Nat.le_of_lt_succ hlt, ?_, fun _ => hsends⟩
    rintro a rfl
    cases hsends
  · rintro ⟨hle, hactor, hshadowed⟩
    refine ⟨Nat.lt_succ_of_le hle, ?_⟩
    by_cases hclear : env.Unshadowed
    · exact (hinstance.holds_sends henv hclear ht hholds).resolve_right
        fun ⟨a, ha⟩ => hactor a ha
    · exact hshadowed hclear

/-- A box, instantiated by a type that is Copy. -/
def boxEnv : TypeEnv where
  structs := [{
    name := "Box", typeParams := [⟨"T", "Copy", default⟩],
    fields := [{ name := "value", spec := default, type := some (.generic "T" "Copy") }] }]

theorem boxEnv_resolved : boxEnv.Resolved := by
  intro decl hdecl field hfield
  have hmem := mem_of_find?_eq_some hdecl
  simp only [boxEnv, mem_singleton] at hmem
  subst hmem
  simp only [mem_singleton] at hfield
  subst hfield
  exact ⟨_, rfl, by decide⟩

theorem typeCopyable_agrees_on_boxes :
    typeCopyable boxEnv (.struct "Box" [.generic "T" "Copy"]) = true ∧
      ((∀ v, HasType boxEnv v (.struct "Box" [.int]) → copyableValue v = true) ↔
        ∀ m u, HoldsAt boxEnv (.struct "Box" [.int]) m u → HasValue boxEnv u →
          m ≤ 128 ∧ (∀ a, u ≠ .actor a) ∧ (¬boxEnv.Unshadowed → u.sends = true)) := by
  have hcopy : typeCopyable boxEnv (.struct "Box" [.generic "T" "Copy"]) = true := by
    refine typeCopyableAt_struct.mpr ⟨_, rfl, by decide, ?_⟩
    intro field hfield
    refine ⟨.generic "T" "Copy", ?_, rfl⟩
    refine (structFieldType_of_resolved rfl rfl field).trans ?_
    rw [mem_singleton.mp hfield]
    simp [substituteType, substituteTypeAt]
  have hinstance : Instance boxEnv [("T", .int)] (.struct "Box" [.generic "T" "Copy"]) := by
    refine ⟨?_, 2, by decide⟩
    intro n name constraint hmem
    simp only [Ty.parameters, allParameters, append_nil, mem_singleton, Prod.mk.injEq,
      Ty.generic.injEq] at hmem
    obtain ⟨-, rfl, rfl⟩ := hmem
    exact ⟨.int, rfl, by decide⟩
  exact ⟨hcopy, typeCopyable_agrees_iff boxEnv_resolved hinstance hcopy⟩

/-- The type of actors of integers is Copy, and an actor is not copyable. -/
theorem actor_not_copyable : typeCopyable {} (.actor .int) = true ∧
    HasType {} (.handle .actor 0) (.actor .int) ∧ copyableValue (.handle .actor 0) = false :=
  ⟨by decide, .handle .actor 0 (.actor .int) rfl, rfl⟩

end Instances

end Kryndel
