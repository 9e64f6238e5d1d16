import Kryndel.Checker.Infer

/-!
# Typing rules as programs

The checker treats most kinds of expression alike: it checks the subexpressions
in some order, each with the type its context expects, and decides from their
types. What it does to the rest of its state is limited to four things, and a
`Rule` is a program over exactly these: check a subexpression, read or replace
the type parameters in scope, record what a name was resolved to on the node
itself, and read the enclosing scope. Variables and closures are not rules: they
read and extend the captures and the scopes themselves.
-/

namespace Kryndel

/-- What a rule can read of the scope it runs in. -/
structure ScopeView where
  /-- `Scope.has`. -/
  has : String → Bool
  worker : Bool
  visibilityScope : String
  /-- `Checker.currentReturn`. -/
  currentReturn : Option Ty

/-- The outcome of checking an expression: its type or a diagnostic. -/
abbrev Typed := Except Diagnostic Ty

/-- A program over the operations a typing rule uses. `child` names a
    subexpression by its position in `Expr.children`. -/
inductive Rule (α : Type) where
  | pure (a : α)
  | child (i : Nat) (expected : Option Ty) (next : Typed → Rule α)
  | getTypeParams (next : TypeParams → Rule α)
  | setTypeParams (typeParams : TypeParams) (next : Rule α)
  | annotate (f : Resolution → Resolution) (next : Rule α)
  | view (next : ScopeView → Rule α)

namespace Rule

variable {α β : Type}

/-- Run one rule program after another. -/
def bind : Rule α → (α → Rule β) → Rule β
  | pure a, f => f a
  | child i expected next, f => child i expected fun t => (next t).bind f
  | getTypeParams next, f => getTypeParams fun ps => (next ps).bind f
  | setTypeParams ps next, f => setTypeParams ps (next.bind f)
  | annotate g next, f => annotate g (next.bind f)
  | view next, f => view fun v => (next v).bind f

instance : Monad Rule where
  pure := pure
  bind := bind

/-- Check a subexpression. -/
def check (i : Nat) (expected : Option Ty) : Rule Typed := child i expected pure

/-- `c.Env.TypeParams`. -/
def typeParams : Rule TypeParams := getTypeParams pure

/-- `c.Env.TypeParams = typeParams`. -/
def putTypeParams (typeParams : TypeParams) : Rule Unit := setTypeParams typeParams (pure ())

/-- Record a resolution on the node. -/
def record (f : Resolution → Resolution) : Rule Unit := annotate f (pure ())

/-- Read the enclosing scope. -/
def scope : Rule ScopeView := view pure

end Rule

/-- A builtin function: how many arguments it takes and how a call is checked
    (one case of `Checker.checkBuiltin`). -/
structure Builtin where
  name : String
  arity : Nat
  check : Expr → Option Ty → Rule Typed

/-- `TypeEnv`, with the table of builtin functions. -/
structure CheckEnv extends TypeEnv where
  builtins : String → Option Builtin

end Kryndel
