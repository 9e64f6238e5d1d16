import Kryndel.Checker.TypeEnv

/-!
# Lexical scopes

Scopes are records in a table. A pointer to a scope is the path from its record
to the outermost one, so looking a name up walks the path and reads each record
as it is at that moment: a declaration added to a record later is seen by every
lookup that starts there.
-/

namespace Kryndel

/-- What a name is bound to (`Binding`). -/
structure Binding where
  type : Ty
  token : Token
  mutable : Bool := false
  isConst : Bool := false
  isGlobal : Bool := false
deriving Repr, Inhabited

/-- The contents of a scope (`Scope`, without its parent). `lambda` is the closure
    the scope lies in. -/
structure ScopeRecord where
  values : List (String × Binding) := []
  lambda : Option FunctionRef := none
  worker : Bool := false
  isUnsafe : Bool := false
  module : String := ""
  visibilityScope : String := ""
deriving Repr, Inhabited

/-- The table of all scopes made so far. -/
abbrev Scopes := List ScopeRecord

namespace Scopes

/-- The record at a position; positions in use always have one. -/
def record (h : Scopes) (i : Nat) : ScopeRecord := h[i]?.getD {}

/-- The record a scope pointer names. -/
def top (h : Scopes) (s : ScopeRef) : ScopeRecord :=
  match s with
  | [] => {}
  | i :: _ => h.record i

/-- `Scope.lookupOwner`. -/
def lookupOwner (h : Scopes) : ScopeRef → String → Option (Binding × ScopeRef)
  | [], _ => none
  | i :: parents, name =>
      match (h.record i).values.lookup name with
      | some b => some (b, i :: parents)
      | none => h.lookupOwner parents name

/-- `Scope.lookup`. -/
def lookup (h : Scopes) (s : ScopeRef) (name : String) : Option Binding :=
  (h.lookupOwner s name).map (·.1)

/-- `Scope.has`. -/
def has (h : Scopes) (s : ScopeRef) (name : String) : Bool := (h.lookupOwner s name).isSome

/-- `Scope.local`. -/
def isLocal (h : Scopes) (s : ScopeRef) (name : String) : Bool :=
  ((h.top s).values.lookup name).isSome

/-- `NewScope`: a fresh record that takes over its parent's module, visibility,
    safety and closure. -/
def newScope (h : Scopes) (parent : ScopeRef) (worker : Bool) : ScopeRef × Scopes :=
  (h.length :: parent, h ++ [{ (h.top parent) with values := [], worker := worker }])

/-- Change the record a scope pointer names. -/
def update (h : Scopes) (s : ScopeRef) (f : ScopeRecord → ScopeRecord) : Scopes :=
  match s with
  | [] => h
  | i :: _ => h.modify i f

/-- `sc.Values[name] = binding`. -/
def define (h : Scopes) (s : ScopeRef) (name : String) (b : Binding) : Scopes :=
  h.update s fun r => { r with values := (name, b) :: r.values }

end Scopes

end Kryndel
