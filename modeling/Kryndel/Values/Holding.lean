import Kryndel.Values.Copyable

/-!
# What the values of a type hold

The runtime walks a value to tell whether it can be sent. What it comes to is told by the type
of the value: the values of a type are all copyable when what they can hold is of kinds that are
sent, and is not too far down.
-/

namespace Kryndel

open List

/-- The types whose values can be sent if what they hold can. -/
def Ty.sends : Ty → Bool
  | .channel _ | .thread _ | .webSocket | .generic _ _ | .actor _ | .taskGroup | .regex | .random
  | .sqlite | .tcpSocket | .tcpListener | .udpSocket | .ffiLibrary | .ffiSymbol | .ffiBuffer
  | .function _ _ => false
  | _ => true

/-- A value of a type can hold a value of another type. Both sides of an entry of a map have a
    value, and so have all fields of a struct value. -/
inductive Holder (env : TypeEnv) : Ty → Ty → Prop where
  | array (a : Ty) : Holder env (.array a) a
  | set (a : Ty) : Holder env (.set a) a
  | option (a : Ty) : Holder env (.option a) a
  | ok (a b : Ty) : Holder env (.result a b) a
  | err (a b : Ty) : Holder env (.result a b) b
  | key (k v : Ty) (partner : HasValue env v) : Holder env (.map k v) k
  | value (k v : Ty) (partner : HasValue env k) : Holder env (.map k v) v
  | field (decl : StructDecl) (params : List Ty) (field : FieldDecl) (a : Ty)
      (declared : env.structDecl decl.name = some decl) (member : field ∈ decl.fields)
      (typed : structFieldType env (.struct decl.name params) field = some a)
      (others : ∀ other ∈ decl.fields, ∀ b,
        structFieldType env (.struct decl.name params) other = some b → HasValue env b) :
      Holder env (.struct decl.name params) a

/-- A value of a type can hold a value of another type some levels down. -/
inductive HoldsAt (env : TypeEnv) : Ty → Nat → Ty → Prop where
  | here (t : Ty) : HoldsAt env t 0 t
  | step {t a u : Ty} {n : Nat} (head : Holder env t a) (rest : HoldsAt env a n u) :
      HoldsAt env t (n + 1) u

/-- The fields of all structs are resolved. -/
def TypeEnv.FieldsTyped (env : TypeEnv) : Prop :=
  ∀ decl, env.structDecl decl.name = some decl → ∀ field ∈ decl.fields, field.type.isSome = true

section Values

variable {env : TypeEnv} {t u a : Ty} {v w : Value} {n k : Nat}

/-! ## A value that holds another -/

variable {fields : List Value} {decls : List FieldDecl}

theorem exists_of_mem_fields (h : fields.length = decls.length) {x : Value} (hx : x ∈ fields) :
    ∃ field ∈ decls, (x, field) ∈ fields.zip decls := by
  rw [← map_fst_zip (Nat.le_of_eq h)] at hx
  obtain ⟨⟨y, field⟩, hentry, rfl⟩ := mem_map.mp hx
  exact ⟨field, (of_mem_zip hentry).2, hentry⟩

variable {field : FieldDecl}

theorem exists_of_mem_decls (h : fields.length = decls.length) (hfield : field ∈ decls) :
    ∃ x, (x, field) ∈ fields.zip decls := by
  rw [← map_snd_zip (Nat.le_of_eq h.symm)] at hfield
  obtain ⟨⟨x, field'⟩, hentry, rfl⟩ := mem_map.mp hfield
  exact ⟨x, hentry⟩

theorem eq_of_mem_zip_map {f : FieldDecl → Value} {x : Value}
    (h : (x, field) ∈ (decls.map f).zip decls) : x = f field := by
  induction decls with
  | nil => cases h
  | cons decl decls ih =>
    rcases mem_cons.mp h with heq | hrest
    · cases heq
      rfl
    · exact ih hrest

theorem exists_struct_value {decl : StructDecl} {params : List Ty}
    (declared : env.structDecl decl.name = some decl) (member : field ∈ decl.fields)
    (typed : structFieldType env (.struct decl.name params) field = some a)
    (others : ∀ other ∈ decl.fields, ∀ b,
      structFieldType env (.struct decl.name params) other = some b → HasValue env b)
    (hw : HasType env w a) :
    ∃ fields, HasType env (.struct decl.name (.struct decl.name params) fields)
      (.struct decl.name params) ∧ w ∈ fields := by
  have hpick : ∀ other : FieldDecl, ∃ x, (other ∈ decl.fields → ∀ b,
      structFieldType env (.struct decl.name params) other = some b → HasType env x b) ∧
      (other = field → x = w) := by
    intro other
    by_cases hother : other = field
    · subst hother
      refine ⟨w, fun _ b hb => ?_, fun _ => rfl⟩
      cases typed.symm.trans hb
      exact hw
    · by_cases hvalue : ∃ b, other ∈ decl.fields ∧
          structFieldType env (.struct decl.name params) other = some b
      · obtain ⟨b, hmem, hb⟩ := hvalue
        obtain ⟨x, hx⟩ := others other hmem b hb
        refine ⟨x, fun _ b' hb' => ?_, fun h => absurd h hother⟩
        cases hb.symm.trans hb'
        exact hx
      · exact ⟨.nil, fun hmem b hb => absurd ⟨b, hmem, hb⟩ hvalue, fun h => absurd h hother⟩
  choose pick hpick using hpick
  refine ⟨decl.fields.map pick, ?_, ?_⟩
  · refine HasType.struct decl params _ declared (by simp) ?_
    rintro ⟨x, other⟩ hentry b hb
    have hmem : other ∈ decl.fields := (of_mem_zip hentry).2
    rw [eq_of_mem_zip_map hentry]
    exact (hpick other).1 hmem b hb
  · rw [← (hpick field).2 rfl]
    exact mem_map_of_mem member

attribute [local simp] copyableValueAt in
theorem Holder.wrap (h : Holder env t a) (hw : HasType env w a) :
    ∃ v, HasType env v t ∧
      ∀ k, copyableValueAt (k + 1) v = true → copyableValueAt k w = true := by
  cases h with
  | array => exact ⟨.array [w], .array _ _ (by simpa using hw), by simp [copyableValueAt]⟩
  | set => exact ⟨.set [w], .set _ _ (by simpa using hw), by simp [copyableValueAt]⟩
  | option => exact ⟨.present w, .present _ _ hw, by simp [copyableValueAt]⟩
  | ok _ b => exact ⟨.result true w, .ok _ _ _ hw, by simp [copyableValueAt]⟩
  | err a _ => exact ⟨.result false w, .err _ _ _ hw, by simp [copyableValueAt]⟩
  | key _ _ partner =>
    obtain ⟨y, hy⟩ := partner
    refine ⟨.map [w] [y], ?_, fun k hk => ?_⟩
    · exact .map _ _ _ _ rfl (by simpa using hw) (by simpa using hy)
    · simp only [copyableValueAt, all_cons, all_nil, Bool.and_true,
        Bool.and_eq_true] at hk
      exact hk.1
  | value _ _ partner =>
    obtain ⟨y, hy⟩ := partner
    refine ⟨.map [y] [w], ?_, fun k hk => ?_⟩
    · exact .map _ _ _ _ rfl (by simpa using hy) (by simpa using hw)
    · simp only [copyableValueAt, all_cons, all_nil, Bool.and_true,
        Bool.and_eq_true] at hk
      exact hk.2
  | field decl params field _ declared member typed others =>
    obtain ⟨fields, hfields, hmem⟩ := exists_struct_value declared member typed others hw
    refine ⟨_, hfields, fun k hk => ?_⟩
    rw [copyableValueAt, all_eq_true] at hk
    exact hk w hmem

theorem HoldsAt.wrap (h : HoldsAt env t n u) (hw : HasType env w u) :
    ∃ v, HasType env v t ∧
      ∀ k, copyableValueAt k v = true → n ≤ k ∧ copyableValueAt (k - n) w = true := by
  induction h with
  | here t => exact ⟨w, hw, fun k hk => ⟨Nat.zero_le k, hk⟩⟩
  | step head rest ih =>
    obtain ⟨y, hy, hcopy⟩ := ih hw
    obtain ⟨v, hv, hstep⟩ := head.wrap hy
    refine ⟨v, hv, fun k hk => ?_⟩
    cases k with
    | zero => simp [copyableValueAt] at hk
    | succ k =>
      obtain ⟨hle, hrest⟩ := hcopy k (hstep k hk)
      refine ⟨Nat.succ_le_succ hle, ?_⟩
      rwa [Nat.succ_sub_succ]

/-! ## Copyable values by their types -/

theorem exists_not_copyable (env : TypeEnv) (h : u.sends = false) :
    ∃ w, HasType env w u ∧ ∀ k, copyableValueAt k w = false := by
  have hhandle : ∀ kind : HandleKind, kind ≠ .shared → kind.hasType u = true →
      ∃ w, HasType env w u ∧ ∀ k, copyableValueAt k w = false := by
    intro kind hkind htype
    refine ⟨.handle kind 0, .handle kind 0 u htype, fun k => ?_⟩
    cases k with
    | zero => rfl
    | succ k => cases kind <;> first | rfl | exact absurd rfl hkind
  have hfunction : ∀ k, copyableValueAt k (.function 0) = false := by
    intro k
    cases k <;> rfl
  cases u with
  | channel a => exact hhandle .channel (by simp) rfl
  | thread a => exact hhandle .thread (by simp) rfl
  | webSocket => exact hhandle .webSocket (by simp) rfl
  | actor a => exact hhandle .actor (by simp) rfl
  | taskGroup => exact hhandle .taskGroup (by simp) rfl
  | regex => exact hhandle .regex (by simp) rfl
  | random => exact hhandle .random (by simp) rfl
  | sqlite => exact hhandle .sqlite (by simp) rfl
  | tcpSocket => exact hhandle .tcp (by simp) rfl
  | tcpListener => exact hhandle .tcpListener (by simp) rfl
  | udpSocket => exact hhandle .udp (by simp) rfl
  | ffiLibrary => exact hhandle .ffiLibrary (by simp) rfl
  | ffiSymbol => exact hhandle .ffiSymbol (by simp) rfl
  | ffiBuffer => exact hhandle .ffiBuffer (by simp) rfl
  | generic name constraint => exact ⟨.function 0, .generic _ name constraint, hfunction⟩
  | function params ret => exact ⟨.function 0, .function 0 params ret, hfunction⟩
  | _ => cases h

theorem handle_of_sends {kind : HandleKind} (h : kind.hasType t = true) (hsends : t.sends = true) :
    kind = .shared := by
  cases kind <;> cases t <;>
    first
    | rfl
    | cases (h : false = true)
    | cases (hsends : false = true)

theorem hasValue_of_fields {decl : StructDecl} {params : List Ty}
    (complete : fields.length = decl.fields.length)
    (typed : ∀ entry ∈ fields.zip decl.fields, ∀ t,
      structFieldType env (.struct decl.name params) entry.2 = some t → HasType env entry.1 t) :
    ∀ other ∈ decl.fields, ∀ b,
      structFieldType env (.struct decl.name params) other = some b → HasValue env b := by
  intro other hother b hb
  obtain ⟨x, hentry⟩ := exists_of_mem_decls complete hother
  exact ⟨x, typed _ hentry b hb⟩

/-- A value is copyable if what the values of its type can hold is sent and is not too far
    down. -/
theorem HasType.copyable (h : HasType env v t) (hfields : env.FieldsTyped) (k : Nat)
    (hall : ∀ n u, HoldsAt env t n u → HasValue env u → n < k ∧ u.sends = true) :
    copyableValueAt k v = true := by
  -- What a part of the value can hold, the value holds one level further down.
  have hpart : ∀ {t a : Ty} {k : Nat}, Holder env t a →
      (∀ n u, HoldsAt env t n u → HasValue env u → n < k + 1 ∧ u.sends = true) →
      ∀ n u, HoldsAt env a n u → HasValue env u → n < k ∧ u.sends = true := by
    intro t a k hholder hall n u hholds hvalue
    obtain ⟨hlt, hsends⟩ := hall (n + 1) u (HoldsAt.step hholder hholds) hvalue
    exact ⟨Nat.lt_of_succ_lt_succ hlt, hsends⟩
  have hhere : ∀ {v : Value} {t : Ty} {k : Nat}, HasType env v t →
      (∀ n u, HoldsAt env t n u → HasValue env u → n < k ∧ u.sends = true) →
      (∃ k', k = k' + 1) ∧ t.sends = true := by
    intro v t k hv hall
    obtain ⟨hpos, hsends⟩ := hall 0 t (.here t) ⟨v, hv⟩
    exact ⟨Nat.exists_eq_add_one.mpr hpos, hsends⟩
  induction h generalizing k with
  | nil =>
    obtain ⟨⟨k, rfl⟩, -⟩ := hhere .nil hall
    rfl
  | void =>
    obtain ⟨⟨k, rfl⟩, -⟩ := hhere .void hall
    rfl
  | int i =>
    obtain ⟨⟨k, rfl⟩, -⟩ := hhere (.int i) hall
    rfl
  | uint bits u =>
    obtain ⟨⟨k, rfl⟩, -⟩ := hhere (.uint bits u) hall
    rfl
  | float f =>
    obtain ⟨⟨k, rfl⟩, -⟩ := hhere (.float f) hall
    rfl
  | bool b =>
    obtain ⟨⟨k, rfl⟩, -⟩ := hhere (.bool b) hall
    rfl
  | string s =>
    obtain ⟨⟨k, rfl⟩, -⟩ := hhere (.string s) hall
    rfl
  | bytes bs =>
    obtain ⟨⟨k, rfl⟩, -⟩ := hhere (.bytes bs) hall
    rfl
  | json text =>
    obtain ⟨⟨k, rfl⟩, -⟩ := hhere (.json text) hall
    rfl
  | absent a =>
    obtain ⟨⟨k, rfl⟩, -⟩ := hhere (.absent a) hall
    rfl
  | enum decl variant declared member =>
    obtain ⟨⟨k, rfl⟩, -⟩ := hhere (.enum decl variant declared member) hall
    rfl
  | array items a elements ih =>
    obtain ⟨⟨k, rfl⟩, -⟩ := hhere (.array items a elements) hall
    rw [copyableValueAt, all_eq_true]
    exact fun x hx => ih x hx k (hpart (.array a) hall)
  | set items a elements ih =>
    obtain ⟨⟨k, rfl⟩, -⟩ := hhere (.set items a elements) hall
    rw [copyableValueAt, all_eq_true]
    exact fun x hx => ih x hx k (hpart (.set a) hall)
  | present inner a payload ih =>
    obtain ⟨⟨k, rfl⟩, -⟩ := hhere (.present inner a payload) hall
    exact ih k (hpart (.option a) hall)
  | ok inner a b payload ih =>
    obtain ⟨⟨k, rfl⟩, -⟩ := hhere (.ok inner a b payload) hall
    exact ih k (hpart (.ok a b) hall)
  | err inner a b payload ih =>
    obtain ⟨⟨k, rfl⟩, -⟩ := hhere (.err inner a b payload) hall
    exact ih k (hpart (.err a b) hall)
  | struct decl params fields declared complete typed ih =>
    obtain ⟨⟨k, rfl⟩, -⟩ := hhere (.struct decl params fields declared complete typed) hall
    rw [copyableValueAt, all_eq_true]
    intro x hx
    obtain ⟨field, hfield, hentry⟩ := exists_of_mem_fields complete hx
    obtain ⟨a, ha⟩ : ∃ a, structFieldType env (.struct decl.name params) field = some a := by
      rw [← Option.isSome_iff_exists, structFieldType_isSome]
      exact hfields decl declared field hfield
    refine ih _ hentry a ha k (hpart ?_ hall)
    exact .field decl params field a declared hfield ha (hasValue_of_fields complete typed)
  | map keys values a b paired keysTyped valuesTyped ihKeys ihValues =>
    obtain ⟨⟨k, rfl⟩, -⟩ := hhere (.map keys values a b paired keysTyped valuesTyped) hall
    rw [copyableValueAt, Bool.and_eq_true, all_eq_true, all_eq_true]
    constructor
    · intro x hx
      obtain ⟨y, hy⟩ : ∃ y, y ∈ values :=
        exists_mem_of_length_pos (paired ▸ length_pos_of_mem hx)
      exact ihKeys x hx k (hpart (.key a b ⟨y, valuesTyped y hy⟩) hall)
    · intro y hy
      obtain ⟨x, hx⟩ : ∃ x, x ∈ keys :=
        exists_mem_of_length_pos (paired ▸ length_pos_of_mem hy)
      exact ihValues y hy k (hpart (.value a b ⟨x, keysTyped x hx⟩) hall)
  | handle kind id t kinds =>
    obtain ⟨⟨k, rfl⟩, hsends⟩ := hhere (.handle kind id t kinds) hall
    rw [handle_of_sends kinds hsends]
    rfl
  | function id params ret =>
    obtain ⟨-, hsends⟩ := hhere (.function id params ret) hall
    cases hsends
  | generic v name constraint =>
    obtain ⟨-, hsends⟩ := hhere (.generic v name constraint) hall
    cases hsends

/-- The values of a type are all copyable when what they can hold is sent and is not too far
    down. -/
theorem copyableValueAt_iff (hfields : env.FieldsTyped) (t : Ty) (k : Nat) :
    (∀ v, HasType env v t → copyableValueAt k v = true) ↔
      ∀ n u, HoldsAt env t n u → HasValue env u → n < k ∧ u.sends = true := by
  constructor
  · intro hall n u hholds ⟨w, hw⟩
    constructor
    · obtain ⟨v, hv, hcopy⟩ := hholds.wrap hw
      obtain ⟨hle, hrest⟩ := hcopy k (hall v hv)
      by_contra hge
      rw [Nat.sub_eq_zero_of_le (Nat.le_of_not_lt hge)] at hrest
      cases hrest
    · by_contra hnot
      obtain ⟨w, hw, hfails⟩ := exists_not_copyable env (Bool.eq_false_iff.mpr hnot)
      obtain ⟨v, hv, hcopy⟩ := hholds.wrap hw
      have hrest := (hcopy k (hall v hv)).2
      rw [hfails] at hrest
      cases hrest
  · exact fun hall v hv => hv.copyable hfields k hall

end Values

end Kryndel
