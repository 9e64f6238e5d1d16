import Kryndel.Kir.Tree
import Kryndel.Evaluation.Operands

/-!
# Expressions of the C backend

The backend emits one C expression for each KIR expression. Literals of collections,
calls and `?` become GNU statement expressions, whose parts run one after the other. All
other operators become calls of runtime routines, with the operands as arguments, and C
does not say in which order arguments are evaluated. `&&` and `||` become the routines
`k_and` and `k_or`, whose arguments are both evaluated.

The emitted text is modelled by what it means: which operands it has, whether they come
one after the other, and which routine gets their values. A variable stands for the C
object with its name.
-/

namespace Kryndel

/-! ## The emitted C -/

/-- What emitted C does with the values of its operands. -/
inductive COp where
  /-- `kv_arr` on the items stored so far. -/
  | array
  /-- `kv_set` on the items, each stored unless it is there already. -/
  | set
  /-- One more entry of a map, or `kfail` for a key that is there already. -/
  | mapEntry
  /-- `kv_map` on the entries. -/
  | map
  /-- `kv_struct` on fields stored at these indices. -/
  | struct (id : Nat) (indices : List Nat)
  /-- A call of a routine, with constants after the operands. -/
  | routine (name : String) (constants : List String)
  /-- `kv_int` of a routine on two C integers. -/
  | intRoutine (name : String)
  /-- `kv_bool` of a comparison of two C integers. -/
  | intCompare (operator : BinaryOp)
  /-- A statement expression that prints and has the value `nil`. -/
  | print (newline : Bool)
  /-- A statement expression that returns from the function, or unpacks its operand. -/
  | propagate
  /-- The check of the call depth before the arguments. -/
  | enter
  /-- A call of an emitted function on a frame that holds the arguments. -/
  | call (symbol : String)
deriving DecidableEq, Repr, Inhabited

/-- An emitted expression. Its operators are told apart by their places in it: the list of
    the positions on the way from an operator to the whole expression. -/
abbrev CExpr := Operands.Term (List Nat) Value String COp

/-! ## The generator -/

/-- `KIRStruct`, with the names of its fields. -/
structure KIRStruct where
  name : String
  fields : List String
deriving DecidableEq, Repr, Inhabited

/-- `KIREnum`. -/
structure KIREnum where
  name : String
  variants : List String
deriving DecidableEq, Repr, Inhabited

/-- What the generator knows when it comes to an expression (`cgen`). Functions are
    positions in its list of functions; the tables are made by the passes before. -/
structure Cgen where
  structs : List KIRStruct := []
  enums : List KIREnum := []
  /-- The struct that a type names (`parseKIRTypeExpression` and `structDecl`). -/
  structOf : String → Option KIRStruct := fun _ => none
  /-- The type under the substitution of the function at hand (`substituteKIRType`). -/
  substituted : String → String := id
  /-- The planned instances of structs. -/
  structID : String → Option Nat := fun _ => none
  functionByTarget : String → Option Nat := fun _ => none
  /-- The method of a trait for a receiver type. -/
  traitImplementationMethod : String → String → String → Option Nat := fun _ _ _ => none
  /-- The C symbol of a function for a receiver type and type arguments. -/
  functionSymbolForCall : Nat → Option String → List String → Option String := fun _ _ _ => none
  /-- The C symbol of the only function of a name, when it is not generic. -/
  workerSymbol : String → Option String := fun _ => none

namespace Cgen

variable (g : Cgen)

/-- `structDecl`. -/
def structDecl (name : String) : Option KIRStruct :=
  g.structs.find? (·.name == name)

/-- The last of the fields with a name. -/
def fieldIndex (decl : KIRStruct) (name : String) : Option Nat :=
  ((List.range decl.fields.length).filter fun i => decl.fields[i]? == some name).getLast?

/-- `enumID` and `variantIndex`: both must be known. -/
def enumConstant (enumType variant : String) : Option Value :=
  (g.enums.find? (·.name == enumType)).bind fun decl =>
    if decl.variants.contains variant then some (.enum enumType variant) else none

/-- The struct literal's routine (`structLiteral`). -/
def structLiteral (type structName : String) (fields : List String) : Option COp := do
  let decl ← g.structDecl structName
  let instanceType := g.substituted type
  let instanceDecl ← g.structOf instanceType
  if instanceDecl.name != decl.name then none
  let id ← g.structID instanceType
  let indices ← fields.mapM (fieldIndex decl)
  some (.struct id indices)

/-- `unary`, for the operators that have a routine. -/
def unary : UnaryOp → Option COp
  | .bang => some (.routine "k_not" [])
  | .minus => some (.routine "k_neg" [])
  | _ => none

/-- `binary`, for the operators that are no connectives. `type` is the type of the whole
    expression and `left` and `right` are those of the operands. -/
def binary (type : String) (operator : BinaryOp) (left right : String) : Option COp :=
  let intOperands := left == "Int" && right == "Int"
  match operator with
  | .eqeq => some (if intOperands then .intCompare .eqeq else .routine "k_eq" [])
  | .neq => some (if intOperands then .intCompare .neq else .routine "k_neq" [])
  | .plus => some (if type == "Int" then .intRoutine "k_add_i" else .routine "k_add" [])
  | .minus => some (if type == "Int" then .intRoutine "k_sub_i" else .routine "k_sub" [])
  | .star => some (if type == "Int" then .intRoutine "k_mul_i" else .routine "k_mul" [])
  | .slash => some (if type == "Int" then .intRoutine "k_div_i" else .routine "k_div" [])
  | .percent => some (if type == "Int" then .intRoutine "k_rem_i" else .routine "k_rem" [])
  | .less => some (if intOperands then .intCompare .less else .routine "k_lt" [])
  | .leq => some (if intOperands then .intCompare .leq else .routine "k_le" [])
  | .greater => some (if intOperands then .intCompare .greater else .routine "k_gt" [])
  | .geq => some (if intOperands then .intCompare .geq else .routine "k_ge" [])
  | _ => none

/-- `field`; the struct is found by the recorded type of the base. -/
def field (base name : String) : Option COp := do
  let decl ← g.structOf base
  let index ← fieldIndex decl name
  some (.routine "k_field" [toString index])

/-! ### Calls -/

/-- The builtins of an arity whose routine has their name after `k_`, and gets their
    arguments and nothing else. -/
def plainBuiltins : Nat → List String
  | 0 =>
    ["none", "yield_now", "actor_channel", "task_group"]
  | 1 =>
    ["len", "bytes", "string_to_bytes", "bytes_to_string", "array_pop", "array_reverse", "str",
     "bool", "assert", "abs", "sqrt", "floor", "ceil", "round", "log", "sin", "cos", "is_nan",
     "is_finite", "is_some", "is_none", "is_ok", "is_err", "some", "ok", "err", "trim",
     "codepoints", "hex_encode", "hex_decode", "base64_encode", "base64_decode", "map_keys",
     "set_len", "fs_read_text", "fs_read_bytes", "fs_exists", "env_get", "tcp_close",
     "sqlite_open", "sqlite_close", "json_parse", "json_stringify", "json_kind",
     "json_object_keys", "json_array_len", "json_int", "json_uint", "json_bool", "json_is_null",
     "crypto_sha256", "crypto_random_bytes", "crypto_sha512", "crypto_sha384", "crypto_sha1",
     "crypto_md5", "base64url_encode", "base64url_decode", "array_indices", "fs_read_dir",
     "fs_create_dir", "fs_create_dir_all", "fs_remove_file", "fs_remove_dir_all", "fs_is_file",
     "fs_is_dir", "fs_file_size", "fs_file_modified_time", "fs_absolute_path", "fs_temp_file",
     "string_lines", "string_chars", "array_sort", "array_sum", "map_values", "set_to_array",
     "tan", "atan", "exp", "log10", "log2", "trunc", "sign", "shared_new", "shared_read",
     "actor_try_receive", "actor_close", "task_group_cancel", "task_group_wait", "await"]
  | 2 =>
    ["array_push", "array_get", "array_concat", "array_contains", "array_join", "assert_eq", "min",
     "max", "pow", "unwrap_or", "contains", "starts_with", "ends_with", "split", "byte_at",
     "map_get", "set_contains", "set_insert", "fs_write_text", "fs_write_bytes", "tcp_connect",
     "tcp_send", "tcp_receive", "sqlite_exec", "sqlite_query", "json_object_get",
     "json_object_keys_allowed", "json_array_get", "crypto_hmac_sha256",
     "crypto_constant_time_equal", "crypto_xor", "string_format", "array_zip", "fs_copy_file",
     "fs_move_file", "fs_join_path", "process_run", "string_repeat", "string_index_of",
     "array_index_of", "map_contains_key", "map_remove", "set_remove", "atan2", "shared_write",
     "shared_swap", "actor_send", "actor_receive_timeout", "await_timeout", "poly_dispatch"]
  | 3 =>
    ["array_slice", "substring", "replace", "map_insert", "http_request", "crypto_aes_gcm_encrypt",
     "crypto_aes_gcm_decrypt", "string_slice", "array_slice_range", "clamp", "poly_register",
     "poly_reorder"]
  | 4 =>
    ["json_object_fields_empty_except", "crypto_pbkdf2_sha256", "crypto_hkdf_sha256"]
  | _ => []

/-- The other builtins with a routine: the arity, the routine and what it gets after the
    arguments. -/
def namedBuiltins : List (String × Nat × String × List String) :=
  [("int", 1, "k_to_int", []), ("u8", 1, "k_to_uint", ["8"]), ("u16", 1, "k_to_uint", ["16"]),
   ("u32", 1, "k_to_uint", ["32"]), ("u64", 1, "k_to_uint", ["64"]),
   ("float", 1, "k_to_float", []), ("json_string", 1, "k_json_string_value", []),
   ("json_float", 1, "k_json_to_float", []), ("fs_temp_dir", 0, "k_fs_temp_dir", ["kv_nil()"]),
   ("sleep_ms", 1, "k_sleep", []), ("string_pad_start", 3, "k_string_pad", ["1"]),
   ("string_pad_end", 3, "k_string_pad", ["0"]), ("string_to_upper", 1, "k_string_case", ["1"]),
   ("string_to_lower", 1, "k_string_case", ["0"]), ("array_min", 1, "k_array_minmax", ["0"]),
   ("array_max", 1, "k_array_minmax", ["1"]), ("array_take", 2, "k_array_take_drop", ["1"]),
   ("array_drop", 2, "k_array_take_drop", ["0"]),
   ("actor_channel_with_capacity", 1, "k_actor_channel_cap", [])]

/-- `builtinCall` for a builtin and its number of arguments, which validation has checked.
    `worker` is the name of the function that a spawn has been given literally; its C symbol
    takes the place of the name. -/
def builtinCall (name : String) (arity : Nat) (worker : Option String) : Option COp :=
  if name = "print" ∧ arity = 1 then some (.print false)
  else if name = "println" ∧ arity = 1 then some (.print true)
  else if name = "thread_spawn" ∧ arity = 1 then
    (worker.bind g.workerSymbol).map fun symbol => .routine "k_thread_spawn" [symbol]
  else if name = "task_spawn" ∧ arity = 2 then
    (worker.bind g.workerSymbol).map fun symbol => .routine "k_task_spawn" [symbol, "0", "0"]
  else if (plainBuiltins arity).contains name then some (.routine ("k_" ++ name) [])
  else (namedBuiltins.find? fun entry => entry.1 == name && entry.2.1 == arity).map fun entry =>
    .routine entry.2.2.1 entry.2.2.2

/-- The function a call goes to (`call`, `methodCall`); `receiver` is the recorded type of
    its receiver. -/
def callee (call : KIRCall) (receiver : Option String) : Option Nat :=
  match receiver, call.target with
  | none, .function target => g.functionByTarget target
  | none, _ => none
  | some type, target =>
    if call.traitName != "" then g.traitImplementationMethod call.traitName call.name type
    else
      match target with
      | .function target => g.functionByTarget target
      | _ => none

/-- `functionCall`: the symbol that the call goes to. -/
def functionCall (call : KIRCall) (receiver : Option String) : Option COp := do
  let f ← g.callee call receiver
  let symbol ← g.functionSymbolForCall f receiver call.genericArguments
  some (.call symbol)

/-- The worker that a spawn names by a string literal. -/
def literalWorker (name : String) : List KIRTree → Option String
  | [.string _ worker] => if name == "thread_spawn" then some worker else none
  | [_, .string _ worker] => if name == "task_spawn" then some worker else none
  | _ => none

/-! ### Expressions -/

mutual

/-- `expr`, for the expression at a place. -/
def expr (place : List Nat) : KIRTree → Option CExpr
  | .int _ i => some (.value (.int i))
  | .float _ x => some (.value (.float x))
  | .bool _ b => some (.value (.bool b))
  | .nil _ => some (.value .nil)
  | .string _ text => some (.value (.string text))
  | .var _ name _ => some (.var name)
  | .enum _ enumType variant => (g.enumConstant enumType variant).map .value
  | .array _ items => do
    let items ← exprs place 0 items
    some (.node place (.ordered .array) items)
  | .set _ items => do
    let items ← exprs place 0 items
    some (.node place (.ordered .set) items)
  | .map _ entries => do
    let entries ← mapEntries place 0 (.value (.map [] [])) entries
    some (.node place (.ordered .map) [entries])
  | .struct type structName fields => do
    let op ← g.structLiteral type structName (fields.map Prod.fst)
    let values ← fieldValues place 0 fields
    some (.node place (.ordered op) values)
  | .unary _ operator operand => do
    let operand ← expr (0 :: place) operand
    match operator with
    | .plus => some operand
    | operator => (unary operator).map fun op => .node place (.unordered op) [operand]
  | .binary type operator left right => do
    let l ← expr (0 :: place) left
    let r ← expr (1 :: place) right
    match operator with
    -- k_and and k_or: calls like any other
    | .and => some (.node place (.connective false) [l, r])
    | .or => some (.node place (.connective true) [l, r])
    | operator =>
      (binary type operator left.type right.type).map fun op => .node place (.unordered op) [l, r]
  | .index _ base left => do
    let base ← expr (0 :: place) base
    let index ← expr (1 :: place) left
    some (.node place (.unordered (.routine "k_index" [])) [base, index])
  | .field _ base name => do
    let op ← g.field base.type name
    let base ← expr (0 :: place) base
    some (.node place (.unordered op) [base])
  | .propagate _ operand => do
    let operand ← expr (0 :: place) operand
    some (.node place (.ordered .propagate) [operand])
  | .call _ call none args => do
    match call.target with
    | .builtin name =>
      if call.builtinID != name then none
      let op ← g.builtinCall name args.length (literalWorker name args)
      let args ← exprs place 0 args
      some (.node place (.unordered op) args)
    | _ =>
      let op ← g.functionCall call none
      let args ← exprs place 1 args
      some (.node place (.ordered op) (.node (0 :: place) (.ordered .enter) [] :: args))
  | .call _ call (some receiver) args => do
    let op ← g.functionCall call (some receiver.type)
    let self ← expr (1 :: place) receiver
    let args ← exprs place 2 args
    some (.node place (.ordered op) (.node (0 :: place) (.ordered .enter) [] :: self :: args))

/-- The expressions at places from `i` on. -/
def exprs (place : List Nat) (i : Nat) : List KIRTree → Option (List CExpr)
  | [] => some []
  | e :: es => do
    let c ← expr (i :: place) e
    let cs ← exprs place (i + 1) es
    some (c :: cs)

/-- The values of the fields in a struct literal. -/
def fieldValues (place : List Nat) (i : Nat) : List (String × KIRTree) → Option (List CExpr)
  | [] => some []
  | (_, e) :: fields => do
    let c ← expr (i :: place) e
    let cs ← fieldValues place (i + 1) fields
    some (c :: cs)

/-- The entries of a map literal after those in `entries`. -/
def mapEntries (place : List Nat) (i : Nat) (entries : CExpr) :
    List (KIRTree × KIRTree) → Option CExpr
  | [] => some entries
  | (key, value) :: rest => do
    let k ← expr (i :: place) key
    let v ← expr ((i + 1) :: place) value
    mapEntries place (i + 3) (.node ((i + 2) :: place) (.ordered .mapEntry) [entries, k, v]) rest

end

end Cgen

end Kryndel
