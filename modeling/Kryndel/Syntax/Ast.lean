import Kryndel.Values.Value

/-!
# The syntax tree

The tree the parser builds and the checker annotates. The program keeps one
record type with a kind tag for expressions and one for statements; here each
kind is a constructor with the fields that kind uses. The checker's annotations
(checked type, folded constant, scope, resolved declaration, captures) are fields
of the nodes, as in the program, so the tree before checking and the tree after
it have one type.

Scopes are mutable objects that nodes point to. A scope's parent never changes,
so a `ScopeRef` is the whole path of scopes that a lookup walks.
-/

namespace Kryndel

/-- A pointer to a lexical scope (`*Scope`): the position of its record in the
    checker's table, followed by those of its ancestors. -/
abbrev ScopeRef := List Nat

/-- A pointer to a function (`*Function`): a declared function by its position
    in the program, a trait's method signature, or the closure whose body was
    checked in a scope. -/
inductive FunctionRef where
  | top (index : Nat)
  | traitMethod (trait : String) (index : Nat)
  | closure (scope : ScopeRef)
deriving DecidableEq, Repr, Inhabited

/-! ## Operators -/

/-- The operators of unary expressions. -/
inductive UnaryOp where
  | bang | minus | plus | bitnot
deriving DecidableEq, Repr, Inhabited

/-- The operators of binary expressions. -/
inductive BinaryOp where
  | or | pipe | bitxor | bitand | and | eqeq | neq | less | leq | greater | geq
  | shl | shr | plus | minus | star | slash | percent
deriving DecidableEq, Repr, Inhabited

/-- `opText`, for unary operators. -/
def UnaryOp.text : UnaryOp → String
  | .bang => "!" | .minus => "-" | .plus => "+" | .bitnot => "~"

/-- `opText`, for binary operators. -/
def BinaryOp.text : BinaryOp → String
  | .or => "||" | .pipe => "|" | .bitxor => "^" | .bitand => "&" | .and => "&&"
  | .eqeq => "==" | .neq => "!=" | .less => "<" | .leq => "<=" | .greater => ">" | .geq => ">="
  | .shl => "<<" | .shr => ">>" | .plus => "+" | .minus => "-" | .star => "*" | .slash => "/"
  | .percent => "%"

/-! ## Patterns -/

/-- What a pattern tests (`PatternKind` with the fields of `Pattern` each kind
    uses). An enum pattern written without its type has the empty type name. -/
inductive PatternKind where
  | wildcard
  | nil
  | bool (b : Bool)
  | int (i : Int64)
  | string (s : String)
  | enum (typeName variant : String)
  | option (present : Bool)
  | result (ok : Bool)
deriving DecidableEq, Repr, Inhabited

/-- A match pattern (`Pattern`). A pattern that binds nothing has the empty
    binding name. -/
structure Pattern where
  kind : PatternKind
  tok : Token := default
  binding : String := ""
  bindingTok : Token := default
  bindingType : Option Ty := none
deriving Repr, Inhabited

/-! ## Signatures and annotations -/

/-- A parameter's name and type (`Param`, without its default). -/
structure ParamSig where
  name : String
  type : TypeSpec
  tok : Token
deriving Repr, Inhabited

/-- What a function declares besides its body (`Function`). -/
structure FunctionSig where
  name : String
  nameToken : Token := default
  isPublic : Bool := false
  trait : String := ""
  typeParams : List TypeParam := []
  params : List ParamSig := []
  ret : TypeSpec
  receiver : Option TypeSpec := none
  tok : Token := default
  module : String := ""
  visibilityScope : String := ""
deriving Repr, Inhabited

/-- A captured binding (`Capture`). -/
structure Capture where
  name : String
  type : Ty
  mutable : Bool
  token : Token
deriving Repr, Inhabited

/-- The fields every expression node has: its token, its checked type and its
    folded value. -/
structure ExprInfo where
  tok : Token := default
  type : Option Ty := none
  constValue : Option Value := none
deriving Repr, Inhabited

/-- What name resolution records on a node: the scope it was looked up in, the
    declaration's token, the function it denotes and the type arguments found
    for it. -/
structure Resolution where
  scope : Option ScopeRef := none
  definition : Option Token := none
  function : Option FunctionRef := none
  genericArguments : List Ty := []
  traitName : String := ""
  variantDefinition : Option Token := none
  tail : Bool := false
deriving Repr, Inhabited

/-- The declaration part of a `let` or `const` statement. -/
structure LetInfo where
  tok : Token := default
  nameToken : Token := default
  name : String
  mutable : Bool := false
  isConst : Bool := false
  annotationSpec : Option TypeSpec := none
  type : Option Ty := none
deriving Repr, Inhabited

/-- The declaration part of a `for` statement. -/
structure ForInfo where
  tok : Token := default
  nameToken : Token := default
  name : String
  type : Option Ty := none
deriving Repr, Inhabited

/-! ## Expressions and statements -/

mutual

/-- `Expr`. -/
inductive Expr where
  | int (info : ExprInfo) (value : Int64)
  | float (info : ExprInfo) (value : Float64)
  | bool (info : ExprInfo) (value : Bool)
  | nil (info : ExprInfo)
  | string (info : ExprInfo) (value : String)
  | var (info : ExprInfo) (name : String) (ref : Resolution)
  | unary (info : ExprInfo) (op : UnaryOp) (operand : Expr)
  | binary (info : ExprInfo) (op : BinaryOp) (left right : Expr)
  /-- A call of a function value or of a named function: `callee(args)`. -/
  | call (info : ExprInfo) (callee : Expr) (args : List Expr) (ref : Resolution)
  /-- A method call: `receiver.name(args)`. -/
  | method (info : ExprInfo) (receiver : Expr) (name : String) (args : List Expr)
      (ref : Resolution)
  | array (info : ExprInfo) (items : List Expr)
  | index (info : ExprInfo) (base left : Expr)
  | field (info : ExprInfo) (base : Expr) (name : String) (ref : Resolution)
  | struct (info : ExprInfo) (spec : TypeSpec) (fields : List String) (values : List Expr)
      (ref : Resolution)
  | enum (info : ExprInfo) (typeName variant : String) (ref : Resolution)
  | map (info : ExprInfo) (keys values : List Expr)
  | set (info : ExprInfo) (items : List Expr)
  | propagate (info : ExprInfo) (operand : Expr)
  | lambda (info : ExprInfo) (sig : FunctionSig) (body : List Stmt) (captures : List Capture)

/-- `Stmt`. -/
inductive Stmt where
  | letStmt (info : LetInfo) (init : Expr)
  | exprStmt (tok : Token) (expr : Expr)
  | assign (tok : Token) (target value : Expr)
  | ifStmt (tok : Token) (cond : Expr) (thenBody elseBody : List Stmt)
  | whileStmt (tok : Token) (cond : Expr) (body : List Stmt)
  | returnStmt (tok : Token) (value : Option Expr)
  | breakStmt (tok : Token)
  | continueStmt (tok : Token)
  | matchStmt (tok : Token) (scrutinee : Expr) (arms : List MatchArm)
  | forStmt (info : ForInfo) (iter : Expr) (body : List Stmt)
  | deferStmt (tok : Token) (body : List Stmt)
  | unsafeStmt (tok : Token) (body : List Stmt)

/-- `MatchArm`. -/
inductive MatchArm where
  | mk (pattern : Pattern) (body : List Stmt)

end

instance : Inhabited Expr := ⟨.nil {}⟩

instance : Inhabited Stmt := ⟨.breakStmt default⟩

instance : Inhabited MatchArm := ⟨.mk default []⟩

/-- The pattern of an arm. -/
def MatchArm.pattern : MatchArm → Pattern
  | .mk pattern _ => pattern

/-- The body of an arm. -/
def MatchArm.body : MatchArm → List Stmt
  | .mk _ body => body

namespace Expr

/-- The fields every node has. -/
def info : Expr → ExprInfo
  | int i _ | float i _ | bool i _ | nil i | string i _ | var i _ _ | unary i _ _
  | binary i _ _ _ | call i _ _ _ | method i _ _ _ _ | array i _ | index i _ _ | field i _ _ _
  | struct i _ _ _ _ | enum i _ _ _ | map i _ _ | set i _ | propagate i _ | lambda i _ _ _ => i

/-- Replace the fields every node has. -/
def withInfo (e : Expr) (i : ExprInfo) : Expr :=
  match e with
  | int _ v => int i v
  | float _ v => float i v
  | bool _ v => bool i v
  | nil _ => nil i
  | string _ v => string i v
  | var _ n r => var i n r
  | unary _ op o => unary i op o
  | binary _ op l r => binary i op l r
  | call _ c as r => call i c as r
  | method _ c n as r => method i c n as r
  | array _ is => array i is
  | index _ b l => index i b l
  | field _ b n r => field i b n r
  | struct _ s fs vs r => struct i s fs vs r
  | enum _ t v r => enum i t v r
  | map _ ks vs => map i ks vs
  | set _ is => set i is
  | propagate _ o => propagate i o
  | lambda _ s b cs => lambda i s b cs

/-- The token of a node. -/
def tok (e : Expr) : Token := e.info.tok

/-- The checked type of a node. -/
def type (e : Expr) : Option Ty := e.info.type

/-- The subexpressions of a node outside closure bodies, in the order the
    checker and the evaluators visit them. -/
def children : Expr → List Expr
  | unary _ _ o | propagate _ o => [o]
  | binary _ _ l r => [l, r]
  | call _ c as _ => c :: as
  | method _ c _ as _ => c :: as
  | array _ is | set _ is => is
  | index _ b l => [b, l]
  | field _ b _ _ => [b]
  | struct _ _ _ vs _ => vs
  | map _ ks vs => ks ++ vs
  | _ => []

/-- Replace the subexpressions of a node, in the order of `children`. -/
def withChildren (e : Expr) (cs : List Expr) : Expr :=
  match e with
  | unary i op o => unary i op (cs.headD o)
  | propagate i o => propagate i (cs.headD o)
  | binary i op l r => binary i op (cs.headD l) (cs.getD 1 r)
  | call i c _ ref => call i (cs.headD c) cs.tail ref
  | method i c n _ ref => method i (cs.headD c) n cs.tail ref
  | array i _ => array i cs
  | set i _ => set i cs
  | index i b l => index i (cs.headD b) (cs.getD 1 l)
  | field i b n ref => field i (cs.headD b) n ref
  | struct i s fs _ ref => struct i s fs cs ref
  | map i ks _ => map i (cs.take ks.length) (cs.drop ks.length)
  | e => e

/-- What name resolution recorded on a node, for the kinds that record something. -/
def resolution : Expr → Resolution
  | var _ _ ref | call _ _ _ ref | method _ _ _ _ ref | field _ _ _ ref | struct _ _ _ _ ref
  | enum _ _ _ ref => ref
  | _ => {}

/-- Replace what name resolution recorded on a node. -/
def withResolution (e : Expr) (ref : Resolution) : Expr :=
  match e with
  | var i n _ => var i n ref
  | call i c as _ => call i c as ref
  | method i c n as _ => method i c n as ref
  | field i b n _ => field i b n ref
  | struct i s fs vs _ => struct i s fs vs ref
  | enum i t v _ => enum i t v ref
  | e => e

/-- The name of a call of a named callee (`Name`): the parser copies it from the
    callee when that is a variable. -/
def calleeName : Expr → String
  | var _ name _ => name
  | _ => ""

end Expr

/-! ## Declarations and programs -/

/-- A parameter of a declared function (`Param`). -/
structure Param extends ParamSig where
  default : Option Expr := none
deriving Inhabited

/-- A declared function or method (`Function`). -/
structure Function where
  name : String
  nameToken : Token := default
  isPublic : Bool := false
  worker : Bool := false
  trait : String := ""
  typeParams : List TypeParam := []
  params : List Param := []
  ret : TypeSpec
  receiver : Option TypeSpec := none
  body : List Stmt := []
  tok : Token := default
  module : String := ""
  visibilityScope : String := ""
deriving Inhabited

/-- A struct field (`FieldDecl`). -/
structure FieldDecl where
  name : String
  isPublic : Bool := true
  spec : TypeSpec
  tok : Token := default
  type : Option Ty := none
deriving Inhabited

/-- `StructDecl`. -/
structure StructDecl where
  name : String
  nameToken : Token := default
  isPublic : Bool := false
  typeParams : List TypeParam := []
  fields : List FieldDecl := []
  tok : Token := default
  module : String := ""
  visibilityScope : String := ""
deriving Inhabited

/-- `EnumDecl`. -/
structure EnumDecl where
  name : String
  nameToken : Token := default
  isPublic : Bool := false
  variants : List String := []
  variantTokens : List Token := []
  tok : Token := default
  module : String := ""
  visibilityScope : String := ""
deriving Inhabited

/-- `TraitDecl`. -/
structure TraitDecl where
  name : String
  methods : List FunctionSig := []
  tok : Token := default
deriving Inhabited

/-- `TraitImplDecl`; its methods are positions in the program's functions. -/
structure TraitImplDecl where
  trait : String
  traitToken : Token := default
  target : TypeSpec
  methods : List Nat := []
  tok : Token := default
deriving Inhabited

/-- `Program`. -/
structure Program where
  statements : List Stmt := []
  functions : List Function := []
  structs : List StructDecl := []
  enums : List EnumDecl := []
  traits : List TraitDecl := []
  traitImpls : List TraitImplDecl := []
  module : String := ""
  visibilityScope : String := ""
deriving Inhabited

end Kryndel
