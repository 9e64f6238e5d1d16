import Kryndel.PE.CallFrames

/-!
# Exactly which calls have frames

The failure blocks keep the stack aligned where they find it aligned, and the operands of the code
of framed expressions fit into eight bits. An expression that is not framed has a run that gets to a
failure block with a stack that is not aligned, or an operand that does not fit.
-/

namespace Kryndel.PE.Calls

open Blocks List

/-! ## Diagnostics -/

/-- Instructions that keep an aligned stack aligned, and call no function. -/
def Instr.aligned : Instr → Bool
  | .subRsp imm | .addRsp imm => imm % 16 = 0 && imm < 128
  | .compare _ | .touchStack _ | .callImport _ | .exit => true
  | _ => false

/-- Events with an aligned stack that are no calls of functions. -/
def Event.Quiet (event : Event) : Prop := event.rsp % 16 = 0 ∧ event.call = none

variable {i : Instr}

theorem step_aligned {A : Operations} (hi : i.aligned = true) {rbp : Int} (hrbp : rbp % 16 = 0)
    (m : Machine) (h : m.rsp % 16 = 0 ∧ m.rbp = rbp) (es : List Event) (out : Ending Machine Stop)
    (hstep : step A i m es out) :
    Keeps (fun m => m.rsp % 16 = 0 ∧ m.rbp = rbp) Event.Quiet (fun _ => True) es out := by
  obtain ⟨hrsp, hframe⟩ := h
  have hgoes {m' : Machine} (hstep : Goes m' es out) (h : m'.rsp % 16 = 0 ∧ m'.rbp = rbp) :
      Keeps (fun m => m.rsp % 16 = 0 ∧ m.rbp = rbp) Event.Quiet (fun _ => True) es out := by
    obtain ⟨rfl, rfl⟩ := hstep
    refine ⟨fun e he => (not_mem_nil he).elim, ?_, fun _ _ => trivial⟩
    intro s hs
    cases hs
    exact h
  cases i
  case subRsp imm | addRsp imm =>
    simp only [Instr.aligned, Bool.and_eq_true, decide_eq_true_eq] at hi
    refine hgoes hstep ⟨?_, hframe⟩
    simp only [signedByte_eq hi.2]
    omega
  case compare imms =>
    obtain ⟨rdx, hstep⟩ := hstep
    exact hgoes hstep ⟨hrsp, hframe⟩
  case touchStack disps =>
    obtain ⟨m', hrsp', hrbp', -, hstep⟩ := hstep
    exact hgoes hstep ⟨hrsp' ▸ hrsp, hrbp'.trans hframe⟩
  case callImport routine =>
    obtain ⟨m', hreturns, rfl, rfl⟩ := hstep
    refine ⟨fun event hevent => ?_, ?_, fun _ _ => trivial⟩
    · obtain rfl := mem_singleton.mp hevent
      exact ⟨hrsp, rfl⟩
    · intro s hs
      cases hs
      exact ⟨hreturns.rsp ▸ hrsp, hreturns.rbp.trans hframe⟩
  case exit =>
    obtain ⟨rfl, rfl⟩ := hstep
    refine ⟨fun event hevent => ?_, fun s hs => (by cases hs), fun _ _ => trivial⟩
    obtain rfl := mem_singleton.mp hevent
    refine ⟨?_, rfl⟩
    simp only [Event.rsp, hframe]
    omega
  all_goals cases hi

variable {es : List Event}

variable {out : Ending Machine Stop}

theorem block_quiet {A : Operations} {c : List (Code Instr)}
    (hc : (instructions c).all Instr.aligned = true) {m : Machine} (hrsp : m.rsp % 16 = 0)
    (hrbp : m.rbp % 16 = 0) (hrun : runs (step A) c m es out) :
    ∀ event ∈ es, event.Quiet := by
  have hkeeps : wp (step A) c m (Keeps (fun m' => m'.rsp % 16 = 0 ∧ m'.rbp = m.rbp) Event.Quiet
      fun _ => True) :=
    wp_keeps c (fun i hi => step_aligned (all_eq_true.mp hc i hi) hrbp) ⟨hrsp, rfl⟩
  exact (hkeeps es out hrun).1

theorem failureBlock_aligned : (instructions failureBlock).all Instr.aligned = true := rfl

theorem trapBlock_quiet {A : Operations} {m : Machine} (hrbp : m.rbp % 16 = 0)
    (hrun : runs (step A) trapBlock m es out) :
    ∀ event ∈ es, event.Quiet := by
  obtain ⟨rfl, -⟩ := runs_one.mp hrun
  intro event hevent
  obtain rfl := mem_singleton.mp hevent
  refine ⟨?_, rfl⟩
  simp only [Event.rsp]
  omega

/-! ## Operands -/

section SignedBytes

@[simp] theorem signedBytes_nil : SignedBytes [] := fun _ hi => (not_mem_nil hi).elim

@[simp] theorem signedBytes_append {c c' : List (Code Instr)} :
    SignedBytes (c ++ c') ↔ SignedBytes c ∧ SignedBytes c' := by
  simp only [SignedBytes, instructions_append, mem_append, or_imp, forall_and]

@[simp] theorem signedBytes_op {c : List (Code Instr)} :
    SignedBytes (.op i :: c) ↔ i.Fits ∧ SignedBytes c := by
  simp only [SignedBytes, instructions, instructionsOne, singleton_append, mem_cons,
    forall_eq_or_imp]

@[simp] theorem signedBytes_branch {left right c : List (Code Instr)} :
    SignedBytes (.branch left right :: c) ↔
      (SignedBytes left ∧ SignedBytes right) ∧ SignedBytes c := by
  simp only [SignedBytes, instructions, instructionsOne, mem_append, or_imp, forall_and]

theorem signedBytes_code {l : List Instr} : SignedBytes (code l) ↔ ∀ i ∈ l, i.Fits := by
  induction l with
  | nil => simp
  | cons i l ih => simp [ih]

theorem fits_none (h : i.operands = []) : i.Fits := by
  intro x hx
  rw [h] at hx
  exact (not_mem_nil hx).elim

theorem fits_one {n : Nat} (h : i.operands = [(n : Int)]) (hn : n < 128) : i.Fits := by
  intro x hx
  rw [h] at hx
  obtain rfl := mem_singleton.mp hx
  omega

theorem failWhen_signedBytes (checked : Bool) (message : String) :
    SignedBytes (failWhen checked message) := by
  cases checked with
  | false => exact signedBytes_nil
  | true => exact signedBytes_op.mpr ⟨fits_none rfl, signedBytes_nil⟩

theorem bits_le (type : PEType) : type.bits < 128 := by
  cases type <;> decide

theorem emitUnaryOperator_signedBytes (operator : UnaryOp) (type : PEType) :
    SignedBytes (emitUnaryOperator operator type) := by
  cases operator with
  | plus => exact signedBytes_nil
  | minus => exact signedBytes_op.mpr ⟨fits_none rfl, failWhen_signedBytes _ _⟩
  | bang => exact signedBytes_op.mpr ⟨fits_none rfl, signedBytes_nil⟩
  | bitnot =>
    refine signedBytes_op.mpr ⟨fits_none rfl, signedBytes_op.mpr ⟨fits_none rfl, signedBytes_nil⟩⟩

theorem emitDivision_signedBytes (operator : BinaryOp) (leftType type : PEType) :
    SignedBytes (emitDivision operator leftType type) := by
  cases hsign : leftType.unsigned <;> simp [emitDivision, hsign, Instr.Fits, Instr.operands]

theorem emitOperator_signedBytes (operator : BinaryOp) (leftType type : PEType) :
    SignedBytes (emitOperator operator leftType type) := by
  have hbits := bits_le leftType
  cases operator
  case slash | percent => exact emitDivision_signedBytes _ leftType type
  case plus | minus | star =>
    simp [emitOperator, failWhen_signedBytes, Instr.Fits, Instr.operands]
  case shl | shr =>
    simp [emitOperator, Instr.Fits, Instr.operands]
    omega
  all_goals simp [emitOperator, Instr.Fits, Instr.operands]

theorem emitUnsignedConversionCheck_signedBytes (argType : PEType) (bits : Nat) :
    SignedBytes (emitUnsignedConversionCheck argType bits) := by
  rw [emitUnsignedConversionCheck, signedBytes_append]
  constructor
  · split <;> simp [Instr.Fits, Instr.operands]
  · generalize (if argType = .int then 64 else argType.bits) = inputBits
    split <;> simp [Instr.Fits, Instr.operands]

theorem emitPEStringFromInteger_signedBytes (depth : Nat) (unsigned : Bool) :
    SignedBytes (emitPEStringFromInteger depth unsigned) := by
  rw [emitPEStringFromInteger]
  generalize hout : (if (depth + 8) % 16 ≠ 0 then 32 + (16 - (depth + 8) % 16) else 32) = outgoing
  have hrange : outgoing < 64 := by
    rw [← hout]
    split <;> omega
  cases unsigned <;> simp [Instr.Fits, Instr.operands] <;> omega

theorem emitStringConversion_signedBytes (depth : Nat) (type : PEType) :
    SignedBytes (emitStringConversion depth type) := by
  cases type with
  | string => exact signedBytes_nil
  | bool => simp [emitStringConversion, Instr.Fits, Instr.operands]
  | int => exact emitPEStringFromInteger_signedBytes depth false
  | uint8 | uint16 | uint32 | uint64 => exact emitPEStringFromInteger_signedBytes depth true

theorem emitStackArgs_signedBytes {outgoing index n : Nat}
    (hsource : outgoing + (index + n) * 8 ≤ 128) (htarget : 32 + (index + n - 4) * 8 ≤ 128) :
    SignedBytes (code (emitStackArgs outgoing index n)) := by
  induction n generalizing index with
  | zero => exact signedBytes_nil
  | succ n ih =>
    have hrest := @ih (index + 1) (by omega) (by omega)
    exact signedBytes_op.mpr ⟨fits_one rfl (by omega),
      signedBytes_op.mpr ⟨fits_one rfl (by omega), hrest⟩⟩

theorem emitRegisterArgs_signedBytes {outgoing n : Nat} (hsource : outgoing + 32 ≤ 128) :
    SignedBytes (code (emitRegisterArgs outgoing n)) := by
  rw [signedBytes_code]
  intro i hi
  obtain ⟨⟨register, index⟩, hregister, rfl⟩ := mem_map.mp hi
  have hindex := snd_lt_add_of_mem_zipIdx (mem_of_mem_take hregister)
  exact fits_one rfl (by simp only [length_cons, length_nil] at hindex; omega)

theorem emitCall_signedBytes {depth n : Nat} {name : String} (hdepth : depth % 8 = 0)
    (hn : n ≤ directPEWindowsMaxArgs) (height : n = directPEWindowsMaxArgs → depth % 16 = 0) :
    SignedBytes (emitCall depth name n) := by
  obtain ⟨htarget, hroom, -⟩ := outgoingBytes_spec hdepth hn height
  obtain ⟨-, hspill, -⟩ := spillBytes_spec hn
  rw [emitCall]
  generalize outgoingBytes depth n = outgoing at htarget hroom
  simp only [code_cons, code_append, code_nil, signedBytes_op, signedBytes_append]
  refine ⟨fits_one rfl (by omega), ⟨⟨emitStackArgs_signedBytes (by omega) (by omega),
    emitRegisterArgs_signedBytes (by omega)⟩, fits_none rfl, fits_one rfl (by omega),
    signedBytes_nil⟩, ?_⟩
  split
  · exact signedBytes_op.mpr ⟨fits_one rfl hspill, signedBytes_nil⟩
  · exact signedBytes_nil

theorem emitStoreArgs_signedBytes : SignedBytes (emitStoreArgs directPEWindowsMaxArgs) := by
  rw [emitStoreArgs, signedBytes_code]
  intro i hi
  obtain ⟨index, hindex, rfl⟩ := mem_map.mp hi
  rw [mem_range, directPEWindowsMaxArgs] at hindex
  by_cases hregister : index < 4
  · exact fits_none (if_pos hregister)
  · exact fits_one (if_neg hregister) (by omega)

theorem failureBlock_signedBytes : SignedBytes failureBlock := by
  have hall : (instructions failureBlock).all (fun i =>
      i.operands.all fun x => decide (-128 ≤ x ∧ x ≤ 127)) = true := by decide
  intro i hi x hx
  exact of_decide_eq_true (all_eq_true.mp (all_eq_true.mp hall i hi) x hx)

theorem trapBlock_signedBytes : SignedBytes trapBlock :=
  signedBytes_op.mpr ⟨fits_none rfl, signedBytes_nil⟩

mutual

theorem emitExpr_signedBytes : (e : PEExpr) → {depth : Nat} → e.Accepted → e.framed depth →
    depth % 8 = 0 → SignedBytes (emitExpr depth e)
  | .const _, _, _, _, _ => signedBytes_op.mpr ⟨fits_none rfl, signedBytes_nil⟩
  | .string _, _, _, _, _ => signedBytes_op.mpr ⟨fits_none rfl, signedBytes_nil⟩
  | .var _, _, _, _, _ => signedBytes_op.mpr ⟨fits_none rfl, signedBytes_nil⟩
  | .unary operator type operand, _, haccepted, hframed, hdepth => by
    rw [emitExpr, signedBytes_append]
    exact ⟨emitExpr_signedBytes operand haccepted hframed.1 hdepth,
      emitUnaryOperator_signedBytes operator type⟩
  | .binary operator leftType type left right, depth, haccepted, hframed, hdepth => by
    have hleft := emitExpr_signedBytes left haccepted.1 hframed.1 hdepth
    rw [emitExpr]
    rw [PEExpr.framed] at hframed
    by_cases hoperator : operator = .and ∨ operator = .or
    · rw [if_pos hoperator] at hframed ⊢
      have hright := emitExpr_signedBytes right haccepted.2 hframed.2 hdepth
      simp [hleft, hright, Instr.Fits, Instr.operands]
    · rw [if_neg hoperator] at hframed ⊢
      have hright := emitExpr_signedBytes right haccepted.2 hframed.2.1
        (by omega : (depth + 8) % 8 = 0)
      simp [hleft, hright, emitOperator_signedBytes, Instr.Fits, Instr.operands]
  | .call name args, _, haccepted, hframed, hdepth => by
    obtain ⟨-, hspill, -⟩ := spillBytes_spec haccepted.1
    rw [emitExpr, signedBytes_append, signedBytes_append]
    refine ⟨?_, emitArgs_signedBytes args haccepted.2 hframed.1 hdepth ?_,
      emitCall_signedBytes hdepth haccepted.1 hframed.2⟩
    · split
      · exact signedBytes_op.mpr ⟨fits_one rfl hspill, signedBytes_nil⟩
      · exact signedBytes_nil
    · rw [Nat.zero_add]
      exact haccepted.1
  | .str type arg, depth, haccepted, hframed, hdepth => by
    rw [emitExpr, signedBytes_append]
    exact ⟨emitExpr_signedBytes arg haccepted hframed hdepth,
      emitStringConversion_signedBytes depth type⟩
  | .convert argType bits arg, _, haccepted, hframed, hdepth => by
    rw [emitExpr, signedBytes_append, signedBytes_append]
    exact ⟨emitExpr_signedBytes arg haccepted hframed.1 hdepth,
      emitUnsignedConversionCheck_signedBytes argType bits,
      signedBytes_op.mpr ⟨fits_none rfl, signedBytes_nil⟩⟩

theorem emitArgs_signedBytes : (args : List PEExpr) → {depth index : Nat} → AcceptedArgs args →
    framedArgs depth args → depth % 8 = 0 → index + args.length ≤ directPEWindowsMaxArgs →
    SignedBytes (emitArgs depth index args)
  | [], _, _, _, _, _, _ => signedBytes_nil
  | arg :: args, depth, index, haccepted, hframed, hdepth, hcount => by
    rw [length_cons] at hcount
    have hindex : index * 8 < 128 := by
      rw [directPEWindowsMaxArgs] at hcount
      omega
    rw [emitArgs, signedBytes_append, signedBytes_append]
    exact ⟨emitExpr_signedBytes arg haccepted.1 hframed.1 hdepth,
      signedBytes_op.mpr ⟨fits_one rfl hindex, signedBytes_nil⟩,
      emitArgs_signedBytes args haccepted.2 hframed.2 hdepth (by omega)⟩

end

end SignedBytes

/-! ## Some runs -/

section Reaches

variable {A : Operations} {c c' : List (Code Instr)} {r r' r'' : Int}

/-- Some run goes through the code, and moves the stack pointer. -/
def Passes (A : Operations) (c : List (Code Instr)) (r r' : Int) : Prop :=
  ∀ m : Machine, m.rsp = r →
    may (step A) c m fun _ out => ∃ m', out = .done m' ∧ m'.rsp = r'

/-- Some run gets to a failure block, with some stack pointer. -/
def Fails (A : Operations) (c : List (Code Instr)) (r r' : Int) : Prop :=
  ∀ m : Machine, m.rsp = r →
    may (step A) c m fun _ out => ∃ message m', out = .stopped (.failed message m') ∧ m'.rsp = r'

theorem passes_nil : Passes A [] r r := fun m hm => may_nil.mpr ⟨m, rfl, hm⟩

theorem Passes.append (h : Passes A c r r') (h' : Passes A c' r' r'') :
    Passes A (c ++ c') r r'' := by
  intro m hm
  refine may_append.mpr ((h m hm).mono ?_)
  rintro es out ⟨m', rfl, hm'⟩
  exact (h' m' hm').mono fun es' out' => id

theorem Passes.fails (h : Passes A c r r') (h' : Fails A c' r' r'') : Fails A (c ++ c') r r'' := by
  intro m hm
  refine may_append.mpr ((h m hm).mono ?_)
  rintro es out ⟨m', rfl, hm'⟩
  exact (h' m' hm').mono fun es' out' => id

theorem Fails.append (h : Fails A c r r') : Fails A (c ++ c') r r' := by
  intro m hm
  refine may_append.mpr ((h m hm).mono ?_)
  rintro es out ⟨message, m', rfl, hm'⟩
  exact ⟨message, m', rfl, hm'⟩

theorem passes_op (h : ∀ m : Machine, m.rsp = r → ∃ es m', step A i m es (.done m') ∧ m'.rsp = r') :
    Passes A [.op i] r r' := by
  intro m hm
  obtain ⟨es, m', hstep, hm'⟩ := h m hm
  exact may_op.mpr ⟨es, _, hstep, m', rfl, hm'⟩

theorem passes_left {left right : List (Code Instr)} (h : Passes A left r r') :
    Passes A [.branch left right] r r' := fun m hm => may_branch.mpr (.inl (h m hm))

theorem fails_right {left right : List (Code Instr)} (h : Fails A right r r') :
    Fails A [.branch left right] r r' := fun m hm => may_branch.mpr (.inr (h m hm))

theorem fails_failIf {message : String} : Fails A [.op (.failIf message)] r r :=
  fun m hm => may_op.mpr ⟨[], _, ⟨rfl, .inr rfl⟩, message, m, rfl, hm⟩

/-- Instructions that do not move the stack pointer, and go on. -/
def Instr.still : Instr → Bool
  | .pushRax | .popRax | .subRsp _ | .addRsp _ | .fail _ | .exit => false
  | _ => true

theorem still_step {i : Instr} (hi : i.still = true) (m : Machine) :
    ∃ es m', step A i m es (.done m') ∧ m'.rsp = m.rsp := by
  cases i
  case compare => exact ⟨[], m, ⟨m.rdx, rfl, rfl⟩, rfl⟩
  case digits => exact ⟨[], m, ⟨m.rax, rfl, rfl⟩, rfl⟩
  case touchStack => exact ⟨[], m, ⟨m, rfl, rfl, fun _ _ => rfl, rfl, rfl⟩, rfl⟩
  case failIf | trapIf => exact ⟨[], m, ⟨rfl, .inl rfl⟩, rfl⟩
  case callFunction => exact ⟨_, m, .inl ⟨m, .refl m _, rfl, rfl⟩, rfl⟩
  case callImport => exact ⟨_, m, ⟨m, .refl m _, rfl, rfl⟩, rfl⟩
  case loadRegister register disp =>
    refine ⟨[], _, ⟨rfl, rfl⟩, ?_⟩
    cases register <;> rfl
  case pushRax | popRax | subRsp | addRsp | fail | exit => cases hi
  all_goals exact ⟨[], _, ⟨rfl, rfl⟩, rfl⟩

theorem passes_still {l : List Instr} (hl : l.all Instr.still = true) :
    Passes A (code l) r r := by
  induction l with
  | nil => exact passes_nil
  | cons i l ih =>
    rw [all_cons, Bool.and_eq_true] at hl
    have hone : Passes A [.op i] r r := by
      refine passes_op fun m hm => ?_
      obtain ⟨es, m', hstep, hrsp⟩ := @still_step A i hl.1 m
      exact ⟨es, m', hstep, hrsp.trans hm⟩
    exact hone.append (ih hl.2)

theorem passes_subRsp {imm : Nat} (himm : imm < 128) (hr : r' = r - imm) :
    Passes A (code [.subRsp imm]) r r' := by
  refine passes_op fun m hm => ⟨[], _, ⟨rfl, rfl⟩, ?_⟩
  simp only [signedByte_eq himm, hm, hr]

theorem passes_addRsp {imm : Nat} (himm : imm < 128) (hr : r' = r + imm) :
    Passes A (code [.addRsp imm]) r r' := by
  refine passes_op fun m hm => ⟨[], _, ⟨rfl, rfl⟩, ?_⟩
  simp only [signedByte_eq himm, hm, hr]

theorem passes_pushRax (hr : r' = r - 8) : Passes A (code [.pushRax]) r r' :=
  passes_op fun m hm => ⟨[], _, ⟨rfl, rfl⟩, by simp only [hm, hr]⟩

theorem passes_popRax (hr : r' = r + 8) : Passes A (code [.popRax]) r r' :=
  passes_op fun m hm => ⟨[], _, ⟨rfl, rfl⟩, by simp only [hm, hr]⟩

/-! ### Operators and conversions -/

theorem failWhen_passes {checked : Bool} {message : String} :
    Passes A (failWhen checked message) r r := by
  cases checked with
  | false => exact passes_nil
  | true => exact passes_still rfl

variable {type : PEType}

theorem emitUnaryOperator_passes {operator : UnaryOp} :
    Passes A (emitUnaryOperator operator type) r r := by
  cases operator with
  | plus => exact passes_nil
  | minus => exact (@passes_still A r [.unary .minus type] rfl).append failWhen_passes
  | bang => exact passes_still rfl
  | bitnot => exact passes_still rfl

theorem emitUnaryOperator_fails {operator : UnaryOp} (h : unaryFails operator type) :
    Fails A (emitUnaryOperator operator type) r r := by
  obtain ⟨rfl, rfl⟩ := h
  exact (@passes_still A r [.unary .minus .int] rfl).fails fails_failIf

variable {leftType : PEType} {operator : BinaryOp}

theorem emitDivision_passes :
    Passes A (emitDivision operator leftType type) r r := by
  have hchecks (message : String) : Passes A (code [.compare [], .failIf message]) r r :=
    passes_still rfl
  have hend : Passes A (code [.binary operator leftType type, .mask type.bits]) r r :=
    passes_still rfl
  refine (hchecks _).append ?_
  split
  · exact hend
  · exact ((@passes_still A r [.compare []] rfl).append (passes_left passes_nil)).append hend

theorem emitDivision_fails :
    Fails A (emitDivision operator leftType type) r r :=
  (@passes_still A r [.compare []] rfl).fails fails_failIf.append

theorem emitOperator_passes :
    Passes A (emitOperator operator leftType type) r r := by
  cases operator
  case slash | percent => exact emitDivision_passes
  case plus | minus | star =>
    exact (@passes_still A r [.binary _ leftType type] rfl).append
      (failWhen_passes.append (passes_still rfl))
  all_goals exact passes_still rfl

theorem emitOperator_fails (h : binaryFails operator leftType) :
    Fails A (emitOperator operator leftType type) r r := by
  cases operator
  case slash | percent => exact emitDivision_fails
  case plus | minus | star =>
    have hsigned : (!leftType.unsigned) = true := by rw [show leftType.unsigned = false from h]; rfl
    refine (@passes_still A r [.binary _ leftType type] rfl).fails (Fails.append ?_)
    rw [hsigned]
    exact fails_failIf
  case shl | shr =>
    exact (@passes_still A r [.compare [(leftType.bits : Int)]] rfl).fails fails_failIf.append
  all_goals cases h

theorem emitUnsignedConversionCheck_passes {argType : PEType} {bits : Nat} :
    Passes A (emitUnsignedConversionCheck argType bits) r r := by
  refine @Passes.append A _ _ r r r ?_ ?_
  · split
    · exact passes_still rfl
    · exact passes_nil
  · generalize (if argType = .int then 64 else argType.bits) = inputBits
    split
    · exact passes_nil
    · exact passes_still rfl

theorem emitUnsignedConversionCheck_fails {argType : PEType} {bits : Nat}
    (h : conversionFails argType bits) :
    Fails A (emitUnsignedConversionCheck argType bits) r r := by
  rw [emitUnsignedConversionCheck]
  by_cases hint : argType = .int
  · rw [if_pos hint]
    exact ((@passes_still A r [.compare []] rfl).fails fails_failIf).append
  · have hnarrow := h.resolve_left hint
    rw [if_neg hint, if_neg hint, if_neg (by omega)]
    exact (@passes_still A r [.moveRcxImmediate _, .compare []] rfl).fails fails_failIf

variable {depth : Nat}

theorem emitPEStringFromInteger_passes {unsigned : Bool} :
    Passes A (emitPEStringFromInteger depth unsigned) r r := by
  rw [emitPEStringFromInteger]
  generalize hout : (if (depth + 8) % 16 ≠ 0 then 32 + (16 - (depth + 8) % 16) else 32) = outgoing
  have hrange : outgoing < 64 := by
    rw [← hout]
    split <;> omega
  have hcalls : Passes A (code [.callImport .getProcessHeap, .callImport .heapAlloc, .compare [],
      .trapIf, .loadStackWide outgoing]) (r - 8 - outgoing) (r - 8 - outgoing) := passes_still rfl
  have hfree : Passes A (code [.addRsp (outgoing + 8)]) (r - 8 - outgoing) r :=
    passes_addRsp (by omega) (by omega)
  have hdigits (imms : List Int) : Passes A (code [.digits imms]) r r := passes_still rfl
  exact (passes_pushRax rfl).append ((passes_subRsp (by omega) rfl).append
    (hcalls.append (hfree.append (hdigits _))))

theorem emitStringConversion_passes :
    Passes A (emitStringConversion depth type) r r := by
  cases type with
  | string => exact passes_nil
  | bool => exact (@passes_still A r [.compare []] rfl).append (passes_left (passes_still rfl))
  | int | uint8 | uint16 | uint32 | uint64 => exact emitPEStringFromInteger_passes

/-! ### Calls and expressions -/

theorem emitStackArgs_still {outgoing index n : Nat} :
    (emitStackArgs outgoing index n).all Instr.still = true := by
  induction n generalizing index with
  | zero => rfl
  | succ n ih => exact ih

theorem emitRegisterArgs_still {outgoing n : Nat} :
    (emitRegisterArgs outgoing n).all Instr.still = true := by
  rw [emitRegisterArgs, all_map]
  exact all_eq_true.mpr fun _ _ => rfl

theorem passes_spill {n : Nat} (hn : n < 128) (hr : r' = r - n) :
    Passes A (if 0 < n then code [.subRsp n] else []) r r' := by
  split
  · exact passes_subRsp hn hr
  · obtain rfl : r' = r := by omega
    exact passes_nil

theorem emitCall_passes {depth n : Nat} {name : String} (hn : n ≤ directPEWindowsMaxArgs)
    (hr : r' = r + spillBytes n) : Passes A (emitCall depth name n) r r' := by
  obtain ⟨-, hspill, -⟩ := spillBytes_spec hn
  have hroom : outgoingBytes depth n < 128 := by
    rw [directPEWindowsMaxArgs] at hn
    simp only [outgoingBytes]
    split <;> omega
  rw [emitCall]
  generalize outgoingBytes depth n = outgoing at hroom
  have hcall : Passes A (code (emitStackArgs outgoing 4 (n - 4) ++ emitRegisterArgs outgoing n ++
      [.callFunction name n])) (r - outgoing) (r - outgoing) := by
    refine passes_still ?_
    rw [all_append, all_append, emitStackArgs_still, emitRegisterArgs_still]
    rfl
  have hfree : Passes A (code [.addRsp outgoing]) (r - outgoing) r :=
    passes_addRsp hroom (by omega)
  have hwords :
      Passes A (code (if 0 < spillBytes n then [.addRsp (spillBytes n)] else [])) r r' := by
    split
    · exact passes_addRsp hspill hr
    · obtain rfl : r' = r := by omega
      exact passes_nil
  have hall := (passes_subRsp hroom rfl).append (hcall.append (hfree.append hwords))
  simpa only [code_cons, code_nil, code_append, append_assoc, cons_append,
    nil_append] using hall

mutual

theorem emitExpr_passes : (e : PEExpr) → {depth : Nat} → e.Accepted → {r : Int} →
    Passes A (emitExpr depth e) r r
  | .const _, _, _, _ => passes_still rfl
  | .string _, _, _, _ => passes_still rfl
  | .var _, _, _, _ => passes_still rfl
  | .unary _ _ operand, _, haccepted, _ => by
    exact (emitExpr_passes operand haccepted).append emitUnaryOperator_passes
  | .binary operator _ _ left right, depth, haccepted, r => by
    have hleft {r : Int} := @emitExpr_passes left depth haccepted.1 r
    rw [emitExpr]
    split
    · have hcheck : Passes A (code [.compare []]) r r := passes_still rfl
      exact hleft.append (hcheck.append (passes_left (passes_still rfl)))
    · have hpop : Passes A (code [.popRax]) (r - 8) r := passes_popRax (by omega)
      have hmove : Passes A (code [.moveRcxRax]) (r - 8) (r - 8) := passes_still rfl
      exact hleft.append ((passes_pushRax rfl).append ((emitExpr_passes right haccepted.2).append
        ((hmove.append hpop).append emitOperator_passes)))
  | .call name args, _, haccepted, _ => by
    obtain ⟨-, hspill, -⟩ := spillBytes_spec haccepted.1
    exact (passes_spill hspill rfl).append ((emitArgs_passes args haccepted.2).append
      (emitCall_passes haccepted.1 (by omega)))
  | .str _ arg, _, haccepted, _ => by
    exact (emitExpr_passes arg haccepted).append emitStringConversion_passes
  | .convert _ _ arg, _, haccepted, _ => by
    exact (emitExpr_passes arg haccepted).append
      (emitUnsignedConversionCheck_passes.append (passes_still rfl))

theorem emitArgs_passes : (args : List PEExpr) → {depth index : Nat} → AcceptedArgs args →
    {r : Int} → Passes A (emitArgs depth index args) r r
  | [], _, _, _, _ => passes_nil
  | arg :: args, _, index, haccepted, r => by
    have hstore : Passes A (code [.storeStack (index * 8)]) r r := passes_still rfl
    exact (emitExpr_passes arg haccepted.1).append
      (hstore.append (emitArgs_passes args haccepted.2))

end

theorem height_of_signedBytes {name : String} (hdepth : depth % 8 = 0)
    (h : SignedBytes (emitCall depth name directPEWindowsMaxArgs)) : depth % 16 = 0 := by
  have hlast : Instr.loadStack (outgoingBytes depth directPEWindowsMaxArgs + 56) ∈
      instructions (emitCall depth name directPEWindowsMaxArgs) := by
    rw [emitCall, directPEWindowsMaxArgs]
    simp [emitStackArgs, code, instructions, instructionsOne]
  have hfits := h _ hlast _ (mem_singleton.mpr rfl)
  by_cases heven : depth % 16 = 0
  · exact heven
  · have hodd : outgoingBytes depth 8 = 72 := by
      simp only [outgoingBytes]
      rw [if_pos (by omega)]
      omega
    rw [directPEWindowsMaxArgs, hodd] at hfits
    omega

/-- The failure blocks that code gets to find an aligned stack. -/
def AlignedFailures (A : Operations) (depth : Nat) (c : List (Code Instr)) : Prop :=
  ∀ r r' : Int, (r + depth) % 16 = 0 → Fails A c r r' → r' % 16 = 0

theorem AlignedFailures.left (h : AlignedFailures A depth (c ++ c')) :
    AlignedFailures A depth c := fun r r' hr hfails => h r r' hr hfails.append

theorem AlignedFailures.even (h : AlignedFailures A depth c) (hfails : ∀ r, Fails A c r r) :
    depth % 16 = 0 := by
  have heven := h (-depth) (-depth) (by omega) (hfails _)
  omega

mutual

/-- Expressions with aligned failure blocks and operands that fit are framed. -/
theorem framed_of_code : (e : PEExpr) → {depth : Nat} → e.Accepted → depth % 8 = 0 →
    SignedBytes (emitExpr depth e) → AlignedFailures A depth (emitExpr depth e) → e.framed depth
  | .const _, _, _, _, _, _ => trivial
  | .string _, _, _, _, _, _ => trivial
  | .var _, _, _, _, _, _ => trivial
  | .unary operator type operand, depth, haccepted, hdepth, hbytes, haligned => by
    rw [emitExpr] at hbytes haligned
    rw [signedBytes_append] at hbytes
    have hpasses (r : Int) : Passes A (emitExpr depth operand) r r :=
      emitExpr_passes operand haccepted
    rw [PEExpr.framed]
    refine ⟨framed_of_code operand haccepted hdepth hbytes.1 haligned.left, fun hfails => ?_⟩
    exact haligned.even fun r => (hpasses r).fails (emitUnaryOperator_fails hfails)
  | .binary operator leftType type left right, depth, haccepted, hdepth, hbytes, haligned => by
    have hleft (r : Int) : Passes A (emitExpr depth left) r r := emitExpr_passes left haccepted.1
    rw [emitExpr] at hbytes haligned
    rw [PEExpr.framed]
    by_cases hoperator : operator = .and ∨ operator = .or
    · rw [if_pos hoperator] at hbytes haligned ⊢
      simp only [signedBytes_append, signedBytes_op, signedBytes_branch] at hbytes
      refine ⟨framed_of_code left haccepted.1 hdepth hbytes.1 haligned.left, ?_⟩
      refine framed_of_code right haccepted.2 hdepth hbytes.2.2.1.2.1 fun r r' hr hfails => ?_
      have hcheck : Passes A (code [.compare []]) r r := passes_still rfl
      exact haligned r r' hr ((hleft r).fails (hcheck.fails (fails_right hfails.append)))
    · rw [if_neg hoperator] at hbytes haligned ⊢
      simp only [signedBytes_append] at hbytes
      have hright (r : Int) : Passes A (emitExpr (depth + 8) right) r r :=
        emitExpr_passes right haccepted.2
      refine ⟨framed_of_code left haccepted.1 hdepth hbytes.1 haligned.left, ?_, fun hfails => ?_⟩
      -- the right operand starts one word lower
      · refine framed_of_code right haccepted.2 (by omega) hbytes.2.2.1 fun r r' hr hfails => ?_
        have hpush : Passes A (code [.pushRax]) (r + 8) r := passes_pushRax (by omega)
        exact haligned (r + 8) r' (by omega) ((hleft _).fails (hpush.fails hfails.append))
      · refine haligned.even fun r => (hleft r).fails ?_
        have hpush : Passes A (code [.pushRax]) r (r - 8) := passes_pushRax rfl
        have hmove : Passes A (code [.moveRcxRax]) (r - 8) (r - 8) := passes_still rfl
        have hpop : Passes A (code [.popRax]) (r - 8) r := passes_popRax (by omega)
        exact hpush.fails ((hright _).fails ((hmove.append hpop).fails
          (emitOperator_fails hfails)))
  | .call name args, depth, haccepted, hdepth, hbytes, haligned => by
    obtain ⟨-, hspill, hwords⟩ := spillBytes_spec haccepted.1
    rw [emitExpr] at hbytes haligned
    simp only [signedBytes_append] at hbytes
    rw [PEExpr.framed]
    refine ⟨framed_of_args args haccepted.2 hdepth hbytes.2.1 fun r r' hr hfails => ?_, ?_⟩
    -- the words for the arguments are a multiple of 16
    · have hentry : Passes A (if 0 < spillBytes args.length
          then code [.subRsp (spillBytes args.length)] else []) (r + spillBytes args.length) r :=
        passes_spill hspill (by omega)
      exact haligned _ r' (by omega) (hentry.fails hfails.append)
    · intro hcount
      have hcall := hbytes.2.2
      rw [hcount] at hcall
      exact height_of_signedBytes hdepth hcall
  | .str type arg, depth, haccepted, hdepth, hbytes, haligned => by
    rw [emitExpr] at hbytes haligned
    rw [signedBytes_append] at hbytes
    rw [PEExpr.framed]
    exact framed_of_code arg haccepted hdepth hbytes.1 haligned.left
  | .convert argType bits arg, depth, haccepted, hdepth, hbytes, haligned => by
    rw [emitExpr] at hbytes haligned
    rw [signedBytes_append] at hbytes
    have hpasses (r : Int) : Passes A (emitExpr depth arg) r r := emitExpr_passes arg haccepted
    refine ⟨framed_of_code arg haccepted hdepth hbytes.1 haligned.left, fun hfails => ?_⟩
    exact haligned.even fun r =>
      (hpasses r).fails (emitUnsignedConversionCheck_fails hfails).append

theorem framed_of_args : (args : List PEExpr) → {depth index : Nat} → AcceptedArgs args →
    depth % 8 = 0 → SignedBytes (emitArgs depth index args) →
    AlignedFailures A depth (emitArgs depth index args) → framedArgs depth args
  | [], _, _, _, _, _, _ => trivial
  | arg :: args, depth, index, haccepted, hdepth, hbytes, haligned => by
    rw [emitArgs] at hbytes haligned
    simp only [signedBytes_append] at hbytes
    have harg (r : Int) : Passes A (emitExpr depth arg) r r := emitExpr_passes arg haccepted.1
    rw [framedArgs]
    refine ⟨framed_of_code arg haccepted.1 hdepth hbytes.1 haligned.left, ?_⟩
    refine framed_of_args args haccepted.2 hdepth hbytes.2.2 fun r r' hr hfails => ?_
    have hstore : Passes A (code [.storeStack (index * 8)]) r r := passes_still rfl
    exact haligned r r' hr ((harg r).fails (hstore.fails hfails))

end

end Reaches

/-! ## The frames of calls -/

section Frames

variable {A : Operations} {e : PEExpr} {m : Machine}

theorem may_step {c : List (Code Instr)} {m' : Machine}
    {Q : List Event → Ending Machine Stop → Prop} (hstep : step A i m es (.done m'))
    (hrest : may (step A) c m' fun es' out => Q (es ++ es') out) :
    may (step A) (.op i :: c) m Q := may_cons.mpr (may_op.mpr ⟨es, _, hstep, hrest⟩)

theorem failureBlock_calls (m : Machine) :
    may (step A) failureBlock m fun es _ => ∃ event ∈ es, event.rsp = m.rsp - 64 := by
  refine may_step ⟨m.rdx, rfl, rfl⟩ (may_branch_cons.mpr (.inr ?_))
  refine may_step ⟨rfl, rfl⟩ (may_step ⟨_, rfl, rfl, fun _ _ => rfl, rfl, rfl⟩ ?_)
  refine may_step ⟨_, .refl _ _, rfl, rfl⟩ (may_step ⟨m.rdx, rfl, rfl⟩ ?_)
  -- the handle may be invalid
  refine may_branch_cons.mpr (.inl (may_step ⟨rfl, rfl⟩ ?_))
  refine may_cons.mpr (may_op.mpr ⟨_, _, ⟨rfl, rfl⟩, ?_⟩)
  exact ⟨.imported (m.rsp - 64) .getStdHandle, mem_cons_self, rfl⟩

theorem slots_bound (offsets : List Nat) : ∃ bound : Nat, ∀ offset ∈ offsets, offset ≤ bound := by
  induction offsets with
  | nil => exact ⟨0, fun offset h => (not_mem_nil h).elim⟩
  | cons first offsets ih =>
    obtain ⟨bound, hbound⟩ := ih
    refine ⟨first + bound, fun offset h => ?_⟩
    rcases mem_cons.mp h with rfl | h
    · omega
    · have hle := hbound offset h
      omega

theorem framed_of_callFrames (haccepted : e.Accepted) (h : CallFrames A e) : e.framed 0 := by
  have hbytes := h.operands
  simp only [signedBytes_append] at hbytes
  refine @framed_of_code A e 0 haccepted rfl hbytes.1.1.1 fun r r' hr hfails => ?_
  -- a frame that is large enough, and a failure in it
  obtain ⟨bound, hbound⟩ := slots_bound e.slots
  let m : Machine := ⟨r, r + 16 * bound, 0, 0, 0, 0, 0, fun _ => 0⟩
  have hframed : Framed e m := by
    refine ⟨by simp only [m]; omega, by simp only [m]; omega, fun offset hoffset => ?_⟩
    have hle := hbound offset hoffset
    simp only [m]
    omega
  obtain ⟨es, out, hrun, message, m', rfl, hm'⟩ := hfails m rfl
  obtain ⟨es', out, hblock, event, hevent, hrsp⟩ := @failureBlock_calls A m'
  have haligned := h.aligned m _ _ hframed (.failed hrun hblock) event
    (mem_append_right _ hevent)
  omega

theorem Framed.slots_env (h : Framed e m) :
    Slots (fun offset => m.mem (m.rbp - offset)) e.slots m.rsp m :=
  fun offset hoffset => ⟨h.slots offset hoffset, rfl⟩

theorem Framed.safe (h : Framed e m) (haccepted : e.Accepted) (hframed : e.framed 0) :
    wp (step A) (emitExpr 0 e) m
      (Safe m.rbp (fun cs => evaluates A (fun offset => m.mem (m.rbp - offset)) e cs none)
        (Computed A (fun offset => m.mem (m.rbp - offset)) e m)) := by
  refine emitExpr_safe e haccepted hframed rfl m ?_ h.slots_env
  have hrsp := h.rsp
  omega

theorem calls_quiet (h : ∀ event ∈ es, event.Quiet) : calls es = [] :=
  filterMap_eq_nil_iff.mpr fun event hevent => (h event hevent).2

theorem Framed.run (h : Framed e m) (haccepted : e.Accepted) (hframed : e.framed 0)
    {r : Option Machine} (hrun : Run A e m es r) :
    (∀ event ∈ es, event.rsp % 16 = 0) ∧ (∀ m', r = some m' → Returns m m.rsp m') ∧
      evaluates A (fun offset => m.mem (m.rbp - offset)) e (calls es) (r.map Machine.rax) := by
  have hsafe := @Framed.safe A e m h haccepted hframed
  have happend {es es' : List Event} (h : ∀ event ∈ es, event.rsp % 16 = 0)
      (h' : ∀ event ∈ es', event.Quiet) : ∀ event ∈ es ++ es', event.rsp % 16 = 0 := by
    intro event hevent
    rcases mem_append.mp hevent with hevent | hevent
    · exact h event hevent
    · exact (h' event hevent).1
  cases hrun with
  | done hrun =>
    obtain ⟨haligned, hreturns, hvalue⟩ := hsafe _ _ hrun
    refine ⟨haligned, fun m' hm' => ?_, hvalue⟩
    cases hm'
    exact hreturns
  | failed hrun hblock =>
    obtain ⟨haligned, hvalue, hrsp, hrbp⟩ := hsafe _ _ hrun
    have hquiet := block_quiet failureBlock_aligned hrsp (hrbp ▸ h.rbp) hblock
    refine ⟨happend haligned hquiet, fun m' hm' => (by cases hm'), ?_⟩
    rw [calls_append, calls_quiet hquiet, append_nil]
    exact hvalue
  | trapped hrun hblock =>
    obtain ⟨haligned, hvalue, hrbp⟩ := hsafe _ _ hrun
    have hquiet := trapBlock_quiet (hrbp ▸ h.rbp) hblock
    refine ⟨happend haligned hquiet, fun m' hm' => (by cases hm'), ?_⟩
    rw [calls_append, calls_quiet hquiet, append_nil]
    exact hvalue
  | exited hrun =>
    obtain ⟨haligned, hvalue⟩ := hsafe _ _ hrun
    exact ⟨haligned, fun m' hm' => (by cases hm'), hvalue⟩

theorem callFrames_of_framed (haccepted : e.Accepted) (h : e.framed 0) : CallFrames A e where
  operands := by
    simp only [signedBytes_append]
    exact ⟨⟨⟨emitExpr_signedBytes e haccepted h rfl, emitStoreArgs_signedBytes⟩,
      failureBlock_signedBytes⟩, trapBlock_signedBytes⟩
  aligned m es r hm hrun := (hm.run haccepted h hrun).1
  restored m es m' hm hrun := (hm.run haccepted h hrun).2.1 m' rfl
  arguments m es r hm hrun := (hm.run haccepted h hrun).2.2

end Frames

/-- Exactly the framed expressions have code that does what its calls need. -/
theorem callFrames_iff (A : Operations) (e : PEExpr) (haccepted : e.Accepted) :
    CallFrames A e ↔ e.framed 0 :=
  ⟨framed_of_callFrames haccepted, callFrames_of_framed haccepted⟩

/-- A call with as many arguments as the backend takes. -/
def sumCall : PEExpr := .call "sum" (List.replicate directPEWindowsMaxArgs (.var 8))

theorem callFrames_iff_sumCall :
    sumCall.Accepted ∧ CallFrames (wordOperations fun _ => 0) sumCall := by
  have haccepted : sumCall.Accepted := by
    simp [sumCall, List.replicate, directPEWindowsMaxArgs, PEExpr.Accepted, AcceptedArgs]
  have hframed : sumCall.framed 0 := by
    simp [sumCall, List.replicate, directPEWindowsMaxArgs, PEExpr.framed, framedArgs]
  exact ⟨haccepted, (callFrames_iff _ sumCall haccepted).mpr hframed⟩

/-- Inside of a right operand the last one of eight arguments is out of reach, and a check that
    fails there gets to its failure block with a stack that is not aligned. -/
theorem callFrames_nested :
    ¬ CallFrames (wordOperations fun _ => 0) (.binary .plus .int .int (.const 1) sumCall) ∧
      ¬ CallFrames (wordOperations fun _ => 0) (.binary .bitand .uint8 .uint8 (.const 1)
        (.call "half" [.binary .slash .uint8 .uint8 (.var 8) (.var 16)])) := by
  constructor
  · intro h
    have hframed := framed_of_callFrames ?_ h
    · simp [sumCall, List.replicate, directPEWindowsMaxArgs, PEExpr.framed] at hframed
    · simp [sumCall, List.replicate, directPEWindowsMaxArgs, PEExpr.Accepted, AcceptedArgs]
  · intro h
    have hframed := framed_of_callFrames ?_ h
    · simp [PEExpr.framed, framedArgs, binaryFails] at hframed
    · simp [directPEWindowsMaxArgs, PEExpr.Accepted, AcceptedArgs]

end Kryndel.PE.Calls
