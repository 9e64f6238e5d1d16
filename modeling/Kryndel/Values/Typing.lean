import Kryndel.Checker.TypeEnv

/-!
# Values of a type

`HasType env v t` is the meaning of a checked type: the runtime values an
expression of that type can produce. It is stated over the declarations of the
program, so an enum value is one of the declared variants and a struct value has
a value for each declared field, at the field's type in that instance.
-/

namespace Kryndel

/-- The type of a host handle, up to its element type. -/
def HandleKind.hasType : HandleKind → Ty → Bool
  | .channel, .channel _ | .thread, .thread _ | .webSocket, .webSocket | .actor, .actor _ => true
  | .shared, .shared _ | .taskGroup, .taskGroup | .regex, .regex | .random, .random => true
  | .sqlite, .sqlite | .tcp, .tcpSocket | .tcpListener, .tcpListener | .udp, .udpSocket => true
  | .ffiLibrary, .ffiLibrary | .ffiSymbol, .ffiSymbol | .ffiBuffer, .ffiBuffer => true
  | _, _ => false

/-- The runtime values of a checked type. A type parameter can be instantiated by
    any type, so every value is a value of it. -/
inductive HasType (env : TypeEnv) : Value → Ty → Prop where
  | nil : HasType env .nil .nil
  | void : HasType env .nil .void
  | int (i : Int64) : HasType env (.int i) .int
  | uint (bits : UInt8) (u : UInt64) : HasType env (Value.uintVal bits u) (.uint bits)
  | float (f : Float64) : HasType env (.float f) .float
  | bool (b : Bool) : HasType env (.bool b) .bool
  | string (s : String) : HasType env (.string s) .string
  | bytes (bs : List UInt8) : HasType env (.bytes bs) .bytes
  | array (items : List Value) (a : Ty) (elements : ∀ x ∈ items, HasType env x a) :
      HasType env (.array items) (.array a)
  | struct (decl : StructDecl) (params : List Ty) (fields : List Value)
      (declared : env.structDecl decl.name = some decl)
      (complete : fields.length = decl.fields.length)
      (typed : ∀ entry ∈ fields.zip decl.fields, ∀ t,
        structFieldType env (.struct decl.name params) entry.2 = some t → HasType env entry.1 t) :
      HasType env (.struct decl.name (.struct decl.name params) fields) (.struct decl.name params)
  | enum (decl : EnumDecl) (variant : String) (declared : env.enumDecl decl.name = some decl)
      (member : variant ∈ decl.variants) : HasType env (.enum decl.name variant) (.enum decl.name)
  | absent (a : Ty) : HasType env .absent (.option a)
  | present (inner : Value) (a : Ty) (payload : HasType env inner a) :
      HasType env (.present inner) (.option a)
  | ok (inner : Value) (a b : Ty) (payload : HasType env inner a) :
      HasType env (.result true inner) (.result a b)
  | err (inner : Value) (a b : Ty) (payload : HasType env inner b) :
      HasType env (.result false inner) (.result a b)
  | map (keys values : List Value) (k v : Ty) (paired : keys.length = values.length)
      (keysTyped : ∀ x ∈ keys, HasType env x k) (valuesTyped : ∀ x ∈ values, HasType env x v) :
      HasType env (.map keys values) (.map k v)
  | set (items : List Value) (a : Ty) (elements : ∀ x ∈ items, HasType env x a) :
      HasType env (.set items) (.set a)
  | json (text : String) : HasType env (.json text) .json
  | handle (kind : HandleKind) (id : Nat) (t : Ty) (kinds : kind.hasType t = true) :
      HasType env (.handle kind id) t
  | function (id : Nat) (params : List Ty) (ret : Ty) :
      HasType env (.function id) (.function params ret)
  | generic (v : Value) (name constraint : String) : HasType env v (.generic name constraint)

/-- Does a type have a value at all? -/
def HasValue (env : TypeEnv) (t : Ty) : Prop := ∃ v, HasType env v t

/-! ## Values by the kind of their type -/

section Inversion

variable {env : TypeEnv} {v : Value}

attribute [local simp] HandleKind.hasType in
theorem HasType.bool_cases (h : HasType env v .bool) : v = .bool true ∨ v = .bool false := by
  cases h with
  | bool b => cases b with
    | true => exact Or.inl rfl
    | false => exact Or.inr rfl
  | handle kind id _ kinds => cases kind <;> simp [HandleKind.hasType] at kinds

theorem HasType.nil_cases (h : HasType env v .nil) : v = .nil := by
  cases h with
  | nil => rfl
  | handle kind id _ kinds => cases kind <;> simp [HandleKind.hasType] at kinds

theorem HasType.option_cases {a : Ty} (h : HasType env v (.option a)) :
    v = .absent ∨ ∃ inner, v = .present inner ∧ HasType env inner a := by
  cases h with
  | absent => exact Or.inl rfl
  | present inner _ payload => exact Or.inr ⟨inner, rfl, payload⟩
  | handle kind id _ kinds => cases kind <;> simp [HandleKind.hasType] at kinds

theorem HasType.result_cases {a b : Ty} (h : HasType env v (.result a b)) :
    ∃ ok inner, v = .result ok inner := by
  cases h with
  | ok inner _ _ _ => exact ⟨true, inner, rfl⟩
  | err inner _ _ _ => exact ⟨false, inner, rfl⟩
  | handle kind id _ kinds => cases kind <;> simp [HandleKind.hasType] at kinds

theorem HasType.enum_cases {name : String} (h : HasType env v (.enum name)) :
    ∃ decl variant, env.enumDecl name = some decl ∧ variant ∈ decl.variants ∧
      v = .enum name variant := by
  cases h with
  | enum decl variant declared member => exact ⟨decl, variant, declared, member, rfl⟩
  | handle kind id _ kinds => cases kind <;> simp [HandleKind.hasType] at kinds

end Inversion

end Kryndel
