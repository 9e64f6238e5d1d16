import Mathlib.Logic.Function.Basic
import Mathlib.Tactic.Ring
import Kryndel.Syntax.Ast
import Kryndel.Systems.Blocks

/-!
# Machine code for expressions

The instructions that `kirPEMachine` emits for an expression, and what they do to the stack. Jumps
to labels that are bound in the same routine are blocks; the shared failure blocks stand behind all
code. What an operator computes is a parameter, and what a callee leaves in the registers that it
may change is open, as is all memory below the arguments of the call.
-/

namespace Kryndel.PE.Calls

open Blocks

/-! ## Instructions -/

/-- The routines of Windows that expressions and diagnostics call. -/
inductive Routine where
  | getProcessHeap
  | heapAlloc
  | getStdHandle
  | writeFile
  | exitProcess
deriving DecidableEq

/-- The registers of the first four arguments. -/
inductive Register where
  | rcx
  | rdx
  | r8
  | r9

/-- The types of expressions in this backend. -/
inductive PEType where
  | int
  | bool
  | string
  | uint8
  | uint16
  | uint32
  | uint64
deriving DecidableEq

/-- `kirPEBits`, and `machineBits`. -/
def PEType.bits : PEType → Nat
  | .uint8 => 8
  | .uint16 => 16
  | .uint32 => 32
  | .uint64 => 64
  | _ => 0

def PEType.unsigned : PEType → Bool
  | .uint8 | .uint16 | .uint32 | .uint64 => true
  | _ => false

/-- Instructions. Displacements and immediates of eight bits are numbers here, as the emitter
    computes them before it takes their low byte. -/
inductive Instr where
  | moveImmediate (value : UInt64)
  | stringAddress (text : String)
  | loadSlot (offset : Nat)
  | pushRax
  | popRax
  | moveRcxRax
  | moveRcxImmediate (value : UInt64)
  | subRsp (imm : Nat)
  | addRsp (imm : Nat)
  | storeStack (disp : Nat)
  | loadStack (disp : Nat)
  | loadRegister (register : Register) (disp : Nat)
  | loadStackWide (disp : Nat)
  | unary (operator : UnaryOp) (type : PEType)
  | binary (operator : BinaryOp) (left type : PEType)
  | truth
  | mask (bits : Nat)
  /-- Tests, which need no register of a value. -/
  | compare (imms : List Int)
  /-- The part of `emitPEStringFromInteger` behind its calls. -/
  | digits (imms : List Int)
  /-- Words of the frame of a diagnostic. -/
  | touchStack (disps : List Nat)
  | failIf (message : String)
  | fail (message : String)
  | trapIf
  | callFunction (name : String) (parameters : Nat)
  | callImport (routine : Routine)
  /-- `emitExit`: `leave`, and a jump into `ExitProcess`. -/
  | exit
  /-- `emitStoreArg`: an argument goes to the slot of the parameter with the same index. -/
  | storeArg (index : Nat)

/-- The operands of eight bits. -/
def Instr.operands : Instr → List Int
  | .subRsp imm => [imm]
  | .addRsp imm => [imm]
  | .storeStack disp => [disp]
  | .loadStack disp => [disp]
  | .loadRegister _ disp => [disp]
  | .compare imms => imms
  | .digits imms => imms
  | .touchStack disps => disps.map fun disp => (disp : Int)
  | .storeArg index => if index < 4 then [] else [(48 + (index - 4) * 8 : Nat)]
  | _ => []

/-- The number that an operand of eight bits is decoded as. -/
def signedByte (n : Nat) : Int :=
  if n % 256 < 128 then (n % 256 : Nat) else (n % 256 : Nat) - 256

/-! ## The machine -/

/-- The stack, in words, and the registers. -/
structure Machine where
  rsp : Int
  rbp : Int
  rax : UInt64
  rcx : UInt64
  rdx : UInt64
  r8 : UInt64
  r9 : UInt64
  mem : Int → UInt64

def Machine.register (m : Machine) : Register → UInt64
  | .rcx => m.rcx
  | .rdx => m.rdx
  | .r8 => m.r8
  | .r9 => m.r9

def Machine.setRegister (m : Machine) (value : UInt64) : Register → Machine
  | .rcx => { m with rcx := value }
  | .rdx => { m with rdx := value }
  | .r8 => { m with r8 := value }
  | .r9 => { m with r9 := value }

/-- A word of the stack. -/
def Machine.store (m : Machine) (address : Int) (value : UInt64) : Machine :=
  { m with mem := Function.update m.mem address value }

/-- A callee behind `push rbp; mov rbp, rsp`: the return address is on the stack, too. -/
def Machine.enter (m : Machine) : Machine := { m with rsp := m.rsp - 16, rbp := m.rsp - 16 }

/-- The value that `emitStoreArg` loads: a register, or a word behind the home area. -/
def Machine.argument (m : Machine) : Nat → UInt64
  | 0 => m.rcx
  | 1 => m.rdx
  | 2 => m.r8
  | 3 => m.r9
  | index => m.mem (m.rbp + signedByte (48 + (index - 4) * 8))

/-- The slot of a parameter (`collectKIRPEBindings`). -/
def parameterSlot (index : Nat) : Nat := (index + 1) * 8

def Machine.storeArg (m : Machine) (index : Nat) : Machine :=
  { m.store (m.rbp - parameterSlot index) (m.argument index) with rax := m.argument index }

/-- The slots of a callee's parameters behind the code that stores them. -/
def Machine.parameters (m : Machine) (n : Nat) : List UInt64 :=
  (List.range n).map fun index =>
    ((List.range n).foldl Machine.storeArg m.enter).mem (m.enter.rbp - parameterSlot index)

/-- A call of a function, whose result is missing if the process ends in it, or a call of Windows:
    the stack pointer in front of the call. -/
inductive Event where
  | function (rsp : Int) (name : String) (arguments : List UInt64) (result : Option UInt64)
  | imported (rsp : Int) (routine : Routine)

def Event.rsp : Event → Int
  | .function rsp _ _ _ => rsp
  | .imported rsp _ => rsp

/-- How code is left: to the failure block of a message, to the trap, or for good. -/
inductive Stop where
  | failed (message : String) (m : Machine)
  | trapped (m : Machine)
  | exited

/-- What a callee leaves: the stack pointer and the frame pointer, and memory from some address
    on. -/
structure Returns (m : Machine) (top : Int) (m' : Machine) : Prop where
  rsp : m'.rsp = m.rsp
  rbp : m'.rbp = m.rbp
  mem : ∀ a, top ≤ a → m'.mem a = m.mem a

/-- How many bytes a routine may change from the stack pointer on: the home area, an argument behind
    it, and the word that the number of written bytes goes to. -/
def Routine.reach : Routine → Int
  | .writeFile => 64
  | _ => 32

/-- What operators compute, and where strings are. -/
structure Operations where
  address : String → UInt64
  unary : UnaryOp → PEType → UInt64 → UInt64
  binary : BinaryOp → PEType → PEType → UInt64 → UInt64 → UInt64
  truth : UInt64 → UInt64
  mask : Nat → UInt64 → UInt64

/-- A word that a comparison leaves. -/
def flag (p : Bool) : UInt64 := if p then 1 else 0

/-- The operations of the machine on words. -/
def wordOperations (address : String → UInt64) : Operations where
  address
  unary
    | .plus, _, v => v
    | .minus, _, v => 0 - v
    | .bang, _, v => flag (v = 0)
    | .bitnot, _, v => ~~~v
  binary operator leftType _ v w :=
    match operator with
    | .plus => v + w
    | .minus => v - w
    | .star => v * w
    | .slash => if leftType.unsigned then v / w else (v.toInt64 / w.toInt64).toUInt64
    | .percent => if leftType.unsigned then v % w else (v.toInt64 % w.toInt64).toUInt64
    | .bitand => v &&& w
    | .bitxor => v ^^^ w
    | .pipe => v ||| w
    | .shl => v <<< w
    | .shr => v >>> w
    | .eqeq => flag (v = w)
    | .neq => flag (v ≠ w)
    | .less => flag (if leftType.unsigned then v < w else v.toInt64 < w.toInt64)
    | .leq => flag (if leftType.unsigned then v ≤ w else v.toInt64 ≤ w.toInt64)
    | .greater => flag (if leftType.unsigned then w < v else w.toInt64 < v.toInt64)
    | .geq => flag (if leftType.unsigned then w ≤ v else w.toInt64 ≤ v.toInt64)
    | _ => v
  truth v := flag (v ≠ 0)
  mask bits v := if bits = 0 ∨ 64 ≤ bits then v else v &&& UInt64.ofNat (2 ^ bits - 1)

/-- An instruction that goes on to the next one. -/
def Goes (m' : Machine) (es : List Event) (out : Ending Machine Stop) : Prop :=
  es = [] ∧ out = .done m'

/-- What an instruction does. -/
def step (A : Operations) : Instr → Machine → List Event → Ending Machine Stop → Prop
  | .moveImmediate value, m => Goes { m with rax := value }
  | .stringAddress text, m => Goes { m with rax := A.address text }
  | .loadSlot offset, m => Goes { m with rax := m.mem (m.rbp - offset) }
  | .pushRax, m => Goes { m.store (m.rsp - 8) m.rax with rsp := m.rsp - 8 }
  | .popRax, m => Goes { m with rax := m.mem m.rsp, rsp := m.rsp + 8 }
  | .moveRcxRax, m => Goes { m with rcx := m.rax }
  | .moveRcxImmediate value, m => Goes { m with rcx := value }
  | .subRsp imm, m => Goes { m with rsp := m.rsp - signedByte imm }
  | .addRsp imm, m => Goes { m with rsp := m.rsp + signedByte imm }
  | .storeStack disp, m => Goes (m.store (m.rsp + signedByte disp) m.rax)
  | .loadStack disp, m => Goes { m with rax := m.mem (m.rsp + signedByte disp) }
  | .loadRegister register disp, m =>
    Goes (m.setRegister (m.mem (m.rsp + signedByte disp)) register)
  | .loadStackWide disp, m => Goes { m with rax := m.mem (m.rsp + disp) }
  | .unary operator type, m => Goes { m with rax := A.unary operator type m.rax }
  | .binary operator left type, m => Goes { m with rax := A.binary operator left type m.rax m.rcx }
  | .truth, m => Goes { m with rax := A.truth m.rax }
  | .mask bits, m => Goes { m with rax := A.mask bits m.rax }
  | .compare _, m => fun es out => ∃ rdx, Goes { m with rdx } es out
  | .digits _, m => fun es out => ∃ rax, Goes { m with rax } es out
  | .touchStack disps, m => fun es out =>
    ∃ m', m'.rsp = m.rsp ∧ m'.rbp = m.rbp ∧
      (∀ a, (∀ disp ∈ disps, a ≠ m.rsp + signedByte disp) → m'.mem a = m.mem a) ∧ Goes m' es out
  | .failIf message, m => fun es out =>
    es = [] ∧ (out = .done m ∨ out = .stopped (.failed message m))
  | .fail message, m => fun es out => es = [] ∧ out = .stopped (.failed message m)
  | .trapIf, m => fun es out => es = [] ∧ (out = .done m ∨ out = .stopped (.trapped m))
  | .callFunction name n, m => fun es out =>
    (∃ m', Returns m (m.rsp + 32 + 8 * (n - 4 : Nat)) m' ∧
      es = [.function m.rsp name (m.parameters n) (some m'.rax)] ∧ out = .done m') ∨
      es = [.function m.rsp name (m.parameters n) none] ∧ out = .stopped .exited
  | .callImport routine, m => fun es out =>
    ∃ m', Returns m (m.rsp + routine.reach) m' ∧ es = [.imported m.rsp routine] ∧ out = .done m'
  | .storeArg index, m => Goes (m.storeArg index)
  -- behind `leave` the stack pointer is at the return address, as in a routine that was called
  | .exit, m => fun es out => es = [.imported (m.rbp + 16) .exitProcess] ∧ out = .stopped .exited

/-! ## Expressions -/

/-- The expressions of this backend: constants are masked already, variables are known by their
    slots. -/
inductive PEExpr where
  | const (value : UInt64)
  | string (text : String)
  | var (offset : Nat)
  | unary (operator : UnaryOp) (type : PEType) (operand : PEExpr)
  | binary (operator : BinaryOp) (leftType type : PEType) (left right : PEExpr)
  | call (name : String) (args : List PEExpr)
  | str (type : PEType) (arg : PEExpr)
  | convert (argType : PEType) (bits : Nat) (arg : PEExpr)

/-- Code without jumps. -/
def code (instrs : List Instr) : List (Code Instr) := instrs.map .op

@[simp] theorem code_nil : code [] = [] := rfl

@[simp] theorem code_cons (i : Instr) (instrs : List Instr) :
    code (i :: instrs) = .op i :: code instrs := rfl

theorem code_append (instrs instrs' : List Instr) :
    code (instrs ++ instrs') = code instrs ++ code instrs' := List.map_append

/-- A jump to a failure block, if there is something to check. -/
def failWhen (checked : Bool) (message : String) : List (Code Instr) :=
  if checked then code [.failIf message] else []

/-- `emitPEStringFromInteger`. -/
def emitPEStringFromInteger (depth : Nat) (unsigned : Bool) : List (Code Instr) :=
  let depth := depth + 8
  let outgoing := if depth % 16 ≠ 0 then 32 + (16 - depth % 16) else 32
  code [.pushRax, .subRsp outgoing, .callImport .getProcessHeap, .callImport .heapAlloc,
    .compare [], .trapIf, .loadStackWide outgoing, .addRsp (outgoing + 8),
    .digits (if unsigned then [28, 48, 48, 28, 8] else [28, 1, 48, 48, 45, 28, 8])]

/-- `emitStringConversion`, behind the code of its argument. -/
def emitStringConversion (depth : Nat) : PEType → List (Code Instr)
  | .string => []
  | .bool => [.op (.compare []),
      .branch (code [.stringAddress "false"]) (code [.stringAddress "true"])]
  | .int => emitPEStringFromInteger depth false
  | _ => emitPEStringFromInteger depth true

/-- `emitUnsignedConversionCheck`. -/
def emitUnsignedConversionCheck (argType : PEType) (bits : Nat) : List (Code Instr) :=
  let inputBits := if argType = .int then 64 else argType.bits
  (if argType = .int then code [.compare [], .failIf "Int is outside unsigned range"] else []) ++
    if inputBits ≤ bits ∨ 64 ≤ bits then []
    else
      code [.moveRcxImmediate (UInt64.ofNat (2 ^ 64 - 2 ^ bits)), .compare [],
        .failIf "value is outside unsigned range"]

/-- The unary operators of `emitExpr`, behind the code of the operand. -/
def emitUnaryOperator (operator : UnaryOp) (type : PEType) : List (Code Instr) :=
  match operator with
  | .plus => []
  | .minus => .op (.unary operator type) :: failWhen (decide (type = .int)) "negation overflow"
  | .bang => code [.unary operator type]
  | .bitnot => code [.unary operator type, .mask type.bits]

/-- The case of divisions in `emitBinary`. -/
def emitDivision (operator : BinaryOp) (leftType type : PEType) : List (Code Instr) :=
  .op (.compare []) ::
    .op (.failIf (if operator = .percent then "remainder by zero" else "division by zero")) ::
      ((if leftType.unsigned then []
      else [.op (.compare []),
        .branch [] [.op (.compare [-1]),
          .branch [] (code [.fail "checked integer arithmetic overflow"])]]) ++
        code [.binary operator leftType type, .mask type.bits])

/-- The operators of `emitBinary`, behind the code of both operands. -/
def emitOperator (operator : BinaryOp) (leftType type : PEType) : List (Code Instr) :=
  match operator with
  | .plus | .minus | .star =>
    .op (.binary operator leftType type) ::
      (failWhen (!leftType.unsigned) "checked integer arithmetic overflow" ++
        code [.mask type.bits])
  | .slash | .percent => emitDivision operator leftType type
  | .shl | .shr =>
    code [.compare [(leftType.bits : Int)],
      .failIf "shift count must be between 0 and UInt width minus one",
      .binary operator leftType type, .mask type.bits]
  | .bitand | .bitxor | .pipe => code [.binary operator leftType type, .mask type.bits]
  | _ => code [.binary operator leftType type]

/-- The words that a call keeps its arguments in while it computes them. -/
def spillBytes (n : Nat) : Nat := (n * 8 + 15) / 16 * 16

/-- The area below them that the callee finds: the home area and the arguments behind it. -/
def outgoingBytes (depth n : Nat) : Nat :=
  let outgoing := 32 + (n - 4) * 8
  let remainder := (depth + outgoing) % 16
  if remainder ≠ 0 then outgoing + (16 - remainder) else outgoing

/-- The arguments behind the fourth one, from some index on. -/
def emitStackArgs (outgoing : Nat) : Nat → Nat → List Instr
  | _, 0 => []
  | index, n + 1 =>
    .loadStack (outgoing + index * 8) :: .storeStack (32 + (index - 4) * 8) ::
      emitStackArgs outgoing (index + 1) n

/-- The arguments in registers. -/
def emitRegisterArgs (outgoing n : Nat) : List Instr :=
  ([.rcx, .rdx, .r8, .r9].zipIdx.take n).map fun (register, index) =>
    .loadRegister register (outgoing + index * 8)

/-- The part of `emitFunctionCall` behind the code of the arguments. -/
def emitCall (depth : Nat) (name : String) (n : Nat) : List (Code Instr) :=
  let outgoing := outgoingBytes depth n
  code (.subRsp outgoing :: (emitStackArgs outgoing 4 (n - 4) ++ emitRegisterArgs outgoing n ++
    [.callFunction name n, .addRsp outgoing] ++
      if 0 < spillBytes n then [.addRsp (spillBytes n)] else []))

mutual

/-- `emitExpr`, with so many bytes on the stack (`windowsStackDepth`). -/
def emitExpr (depth : Nat) : PEExpr → List (Code Instr)
  | .const value => code [.moveImmediate value]
  | .string text => code [.stringAddress text]
  | .var offset => code [.loadSlot offset]
  | .unary operator type operand =>
    emitExpr depth operand ++ emitUnaryOperator operator type
  | .binary operator leftType type left right =>
    if operator = .and ∨ operator = .or then
      emitExpr depth left ++ [.op (.compare []),
        .branch (code [.moveImmediate (if operator = .and then 0 else 1)])
          (emitExpr depth right ++ code [.truth])]
    else
      emitExpr depth left ++ (code [.pushRax] ++ (emitExpr (depth + 8) right ++
        (code [.moveRcxRax, .popRax] ++ emitOperator operator leftType type)))
  | .call name args =>
    -- `emitFunctionCall`
    (if 0 < spillBytes args.length then code [.subRsp (spillBytes args.length)] else []) ++
      (emitArgs depth 0 args ++ emitCall depth name args.length)
  | .str type arg => emitExpr depth arg ++ emitStringConversion depth type
  | .convert argType bits arg =>
    emitExpr depth arg ++ (emitUnsignedConversionCheck argType bits ++ code [.mask bits])

/-- The arguments of a call from some index on, each in its word. -/
def emitArgs (depth index : Nat) : List PEExpr → List (Code Instr)
  | [] => []
  | arg :: args =>
    emitExpr depth arg ++ (code [.storeStack (index * 8)] ++ emitArgs depth (index + 1) args)

end

/-! ## Diagnostics -/

/-- A jump to the label `failed` of `emitPEWriteRDXR8To`, or none. -/
def writeFailed : List (Code Instr) := [.branch (code [.addRsp 64, .exit]) []]

/-- `emitPEWriteRDXR8To` with the standard error and a label where the process ends. -/
def emitPEWriteStderr : List (Code Instr) :=
  [.op (.compare []), .branch []
    (code [.subRsp 64, .touchStack [48, 56, 32], .callImport .getStdHandle, .compare []] ++
      (writeFailed ++ (code [.compare [-1]] ++ (writeFailed ++ (code [.touchStack [40]] ++
        ([.loop (code [.touchStack [40, 48, 56, 60], .callImport .writeFile, .compare []] ++
          (writeFailed ++ (code [.touchStack [60], .compare []] ++
            (writeFailed ++ (code [.touchStack [56]] ++
              (writeFailed ++ code [.touchStack [48, 56]]))))))] ++
          code [.addRsp 64]))))))]

/-- The block that the jumps of one message share. -/
def failureBlock : List (Code Instr) := emitPEWriteStderr ++ code [.exit]

/-- The block of the trap. -/
def trapBlock : List (Code Instr) := code [.exit]

/-- The code that stores the arguments in a callee (`emitFunctions`). -/
def emitStoreArgs (n : Nat) : List (Code Instr) := code ((List.range n).map .storeArg)

/-- Whole runs of an expression's code, with the failure blocks behind it. -/
inductive Run (A : Operations) (e : PEExpr) (m : Machine) : List Event → Option Machine → Prop where
  | done {es : List Event} {m' : Machine} (h : runs (step A) (emitExpr 0 e) m es (.done m')) :
      Run A e m es (some m')
  | failed {es es' : List Event} {message : String} {m' : Machine} {out : Ending Machine Stop}
      (h : runs (step A) (emitExpr 0 e) m es (.stopped (.failed message m')))
      (block : runs (step A) failureBlock m' es' out) : Run A e m (es ++ es') none
  | trapped {es es' : List Event} {m' : Machine} {out : Ending Machine Stop}
      (h : runs (step A) (emitExpr 0 e) m es (.stopped (.trapped m')))
      (block : runs (step A) trapBlock m' es' out) : Run A e m (es ++ es') none
  | exited {es : List Event} (h : runs (step A) (emitExpr 0 e) m es (.stopped .exited)) :
      Run A e m es none

end Kryndel.PE.Calls
