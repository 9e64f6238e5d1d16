import Kryndel.Syntax.Ast
import Kryndel.Values.Value

/-!
# KIR expressions as trees

A row of the arena names its children by their positions. The evaluators and code
generators follow these positions from a row down, so what they go through is a tree.

Lambdas, calls of function values and default arguments are left out: the C backend
refuses programs with function values, and a default belongs to the function called.
-/

namespace Kryndel

/-- What a call calls (`CallTarget`). -/
inductive CallTarget where
  | builtin (name : String)
  | function (target : String)
  | trait (trait method : String)
deriving DecidableEq, Repr, Inhabited

/-- The scalars of a call (`KIRExpr` of the kind `call`). -/
structure KIRCall where
  name : String
  target : CallTarget
  builtinID : String := ""
  traitName : String := ""
  genericArguments : List String := []
deriving DecidableEq, Repr, Inhabited

/-- An expression of the KIR (`KIRExpr` with the rows it refers to). Every expression has
    the type that the checker recorded for it (`Type`), and a variable names the binding
    that the checker resolved it to. -/
inductive KIRTree where
  | int (type : String) (value : Int64)
  | float (type : String) (value : Float64)
  | bool (type : String) (value : Bool)
  | nil (type : String)
  | string (type : String) (value : String)
  | var (type name binding : String)
  | enum (type enumType enumVariant : String)
  | array (type : String) (items : List KIRTree)
  | set (type : String) (items : List KIRTree)
  | map (type : String) (entries : List (KIRTree × KIRTree))
  | struct (type structName : String) (fields : List (String × KIRTree))
  | unary (type : String) (operator : UnaryOp) (operand : KIRTree)
  | binary (type : String) (operator : BinaryOp) (left right : KIRTree)
  | index (type : String) (base left : KIRTree)
  | field (type : String) (base : KIRTree) (field : String)
  | propagate (type : String) (operand : KIRTree)
  | call (type : String) (call : KIRCall) (receiver : Option KIRTree) (args : List KIRTree)
deriving Repr, Inhabited

/-- The recorded type of an expression (`Type`). -/
def KIRTree.type : KIRTree → String
  | int type _ => type
  | float type _ => type
  | bool type _ => type
  | nil type => type
  | string type _ => type
  | var type _ _ => type
  | enum type _ _ => type
  | array type _ => type
  | set type _ => type
  | map type _ => type
  | struct type _ _ => type
  | unary type _ _ => type
  | binary type _ _ _ => type
  | index type _ _ => type
  | field type _ _ => type
  | propagate type _ => type
  | call type _ _ _ => type

end Kryndel
