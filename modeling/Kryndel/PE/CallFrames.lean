import Kryndel.PE.CallCode

/-!
# Stack frames of calls

What holds of the stack in the code of an expression: its words above the stack pointer stay, and
the stack pointer is where it was. Two kinds of places need an even number of operands on the stack:
the jumps to failure blocks, which do not restore the stack, and calls with eight arguments, whose
last one is too far away for a displacement of eight bits.
-/

namespace Kryndel.PE.Calls

open Blocks List

/-! ## Values -/

/-- A call: the function, its arguments and its result. -/
abbrev Call := String × List UInt64 × Option UInt64

def Event.call : Event → Option Call
  | .function _ name arguments result => some (name, arguments, result)
  | .imported _ _ => none

/-- The calls among some events. -/
def calls (es : List Event) : List Call := es.filterMap Event.call

/-- Can the check of a unary operator fail? -/
def unaryFails (operator : UnaryOp) (type : PEType) : Prop := operator = .minus ∧ type = .int

/-- Can a check of a binary operator fail? -/
def binaryFails (operator : BinaryOp) (leftType : PEType) : Prop :=
  match operator with
  | .plus | .minus | .star => leftType.unsigned = false
  | .slash | .percent | .shl | .shr => True
  | _ => False

/-- Can a check of a conversion fail? -/
def conversionFails (argType : PEType) (bits : Nat) : Prop :=
  argType = .int ∨ bits < argType.bits ∧ bits < 64

def unaryValue (A : Operations) (operator : UnaryOp) (type : PEType) (v : UInt64) : UInt64 :=
  match operator with
  | .plus => v
  | .minus | .bang => A.unary operator type v
  | .bitnot => A.mask type.bits (A.unary operator type v)

def binaryValue (A : Operations) (operator : BinaryOp) (leftType type : PEType) (v w : UInt64) :
    UInt64 :=
  match operator with
  | .plus | .minus | .star | .slash | .percent | .shl | .shr | .bitand | .bitxor | .pipe =>
    A.mask type.bits (A.binary operator leftType type v w)
  | _ => A.binary operator leftType type v w

/-- The value of a conversion to a string; numbers become new objects, for which there may be no
    memory. -/
def stringValue (A : Operations) (v : UInt64) (r : Option UInt64) : PEType → Prop
  | .string => r = some v
  | .bool => r = some (A.address "true") ∨ r = some (A.address "false")
  | _ => True

/-- What follows on a value: another value, or the end, where a check can fail. -/
def follows (x : Option UInt64) (value : UInt64 → UInt64) (fails : Prop) (r : Option UInt64) :
    Prop :=
  match x with
  | none => r = none
  | some v => r = some (value v) ∨ fails ∧ r = none

section Values

variable (A : Operations) (env : Nat → UInt64)

mutual

/-- The calls of an expression from the left to the right, and its value; none, if the process ends
    in it. -/
def evaluates : PEExpr → List Call → Option UInt64 → Prop
  | .const value, cs, r => cs = [] ∧ r = some value
  | .string text, cs, r => cs = [] ∧ r = some (A.address text)
  | .var offset, cs, r => cs = [] ∧ r = some (env offset)
  | .unary operator type operand, cs, r =>
    ∃ x, evaluates operand cs x ∧
      follows x (unaryValue A operator type) (unaryFails operator type) r
  | .binary operator leftType type left right, cs, r =>
    (evaluates left cs none ∧ r = none) ∨ ∃ v cs₁, evaluates left cs₁ (some v) ∧
      if operator = .and ∨ operator = .or then
        (cs = cs₁ ∧ r = some (if operator = .and then 0 else 1)) ∨
          ∃ x cs₂, evaluates right cs₂ x ∧ cs = cs₁ ++ cs₂ ∧ r = x.map A.truth
      else
        ∃ x cs₂, evaluates right cs₂ x ∧ cs = cs₁ ++ cs₂ ∧
          follows x (binaryValue A operator leftType type v) (binaryFails operator leftType) r
  | .call name args, cs, r =>
    (evaluatesArgs args cs none ∧ r = none) ∨
      ∃ vs cs₁, evaluatesArgs args cs₁ (some vs) ∧ cs = cs₁ ++ [(name, vs, r)]
  | .str type arg, cs, r =>
    (evaluates arg cs none ∧ r = none) ∨ ∃ v, evaluates arg cs (some v) ∧ stringValue A v r type
  | .convert argType bits arg, cs, r =>
    ∃ x, evaluates arg cs x ∧ follows x (A.mask bits) (conversionFails argType bits) r

/-- The same for the arguments of a call. -/
def evaluatesArgs : List PEExpr → List Call → Option (List UInt64) → Prop
  | [], cs, r => cs = [] ∧ r = some []
  | arg :: args, cs, r =>
    (evaluates arg cs none ∧ r = none) ∨ ∃ v cs₁, evaluates arg cs₁ (some v) ∧
      ∃ x cs₂, evaluatesArgs args cs₂ x ∧ cs = cs₁ ++ cs₂ ∧ r = x.map (v :: ·)

end

end Values

/-! ## Expressions -/

mutual

/-- The slots of the variables. -/
def PEExpr.slots : PEExpr → List Nat
  | .const _ => []
  | .string _ => []
  | .var offset => [offset]
  | .unary _ _ operand => operand.slots
  | .binary _ _ _ left right => left.slots ++ right.slots
  | .call _ args => slotsOfArgs args
  | .str _ arg => arg.slots
  | .convert _ _ arg => arg.slots

def slotsOfArgs : List PEExpr → List Nat
  | [] => []
  | arg :: args => arg.slots ++ slotsOfArgs args

end

/-- `directPEWindowsMaxArgs`. -/
def directPEWindowsMaxArgs : Nat := 8

mutual

/-- No call has more arguments than the backend takes. -/
def PEExpr.Accepted : PEExpr → Prop
  | .unary _ _ operand => operand.Accepted
  | .binary _ _ _ left right => left.Accepted ∧ right.Accepted
  | .call _ args => args.length ≤ directPEWindowsMaxArgs ∧ AcceptedArgs args
  | .str _ arg => arg.Accepted
  | .convert _ _ arg => arg.Accepted
  | _ => True

def AcceptedArgs : List PEExpr → Prop
  | [] => True
  | arg :: args => arg.Accepted ∧ AcceptedArgs args

end

mutual

/-- With so many bytes on the stack: nowhere inside of an odd number of right operands is there an
    operator or a conversion whose check can fail, or a call with eight arguments. -/
def PEExpr.framed (depth : Nat) : PEExpr → Prop
  | .unary operator type operand =>
    operand.framed depth ∧ (unaryFails operator type → depth % 16 = 0)
  | .binary operator leftType _ left right =>
    left.framed depth ∧
      if operator = .and ∨ operator = .or then right.framed depth
      else right.framed (depth + 8) ∧ (binaryFails operator leftType → depth % 16 = 0)
  | .call _ args =>
    framedArgs depth args ∧ (args.length = directPEWindowsMaxArgs → depth % 16 = 0)
  | .str _ arg => arg.framed depth
  | .convert argType bits arg =>
    arg.framed depth ∧ (conversionFails argType bits → depth % 16 = 0)
  | _ => True

def framedArgs (depth : Nat) : List PEExpr → Prop
  | [] => True
  | arg :: args => arg.framed depth ∧ framedArgs depth args

end

/-- A frame that an expression is computed in: aligned, with the slots in it. -/
structure Framed (e : PEExpr) (m : Machine) : Prop where
  rsp : m.rsp % 16 = 0
  rbp : m.rbp % 16 = 0
  slots : ∀ offset ∈ e.slots, m.rsp ≤ m.rbp - offset

/-- The operands of eight bits are decoded as the numbers that they stand for. -/
def Instr.Fits (i : Instr) : Prop := ∀ x ∈ i.operands, -128 ≤ x ∧ x ≤ 127

/-- All operands of eight bits fit. -/
def SignedBytes (c : List (Code Instr)) : Prop := ∀ i ∈ instructions c, i.Fits

/-- What the code of an expression has to do for its calls. -/
structure CallFrames (A : Operations) (e : PEExpr) : Prop where
  operands : SignedBytes
    (emitExpr 0 e ++ emitStoreArgs directPEWindowsMaxArgs ++ failureBlock ++ trapBlock)
  aligned : ∀ m es r, Framed e m → Run A e m es r → ∀ event ∈ es, event.rsp % 16 = 0
  restored : ∀ m es m', Framed e m → Run A e m es (some m') → Returns m m.rsp m'
  arguments : ∀ m es r, Framed e m → Run A e m es r →
    evaluates A (fun offset => m.mem (m.rbp - offset)) e (calls es) (r.map Machine.rax)

/-! ## Code in parts -/

theorem calls_append (es es' : List Event) : calls (es ++ es') = calls es ++ calls es' :=
  filterMap_append

/-- What is kept on the way: calls are aligned, and so is the stack where a failure block takes
    over; `stop` is about the calls so far and `D` about them and the machine behind the code. -/
def Safe (rbp : Int) (stop : List Call → Prop) (D : List Call → Machine → Prop)
    (es : List Event) : Ending Machine Stop → Prop
  | .done m => (∀ event ∈ es, event.rsp % 16 = 0) ∧ D (calls es) m
  | .stopped (.failed _ m) =>
    (∀ event ∈ es, event.rsp % 16 = 0) ∧ stop (calls es) ∧ m.rsp % 16 = 0 ∧ m.rbp = rbp
  | .stopped (.trapped m) => (∀ event ∈ es, event.rsp % 16 = 0) ∧ stop (calls es) ∧ m.rbp = rbp
  | .stopped .exited => (∀ event ∈ es, event.rsp % 16 = 0) ∧ stop (calls es)

section Parts

variable {A : Operations} {rbp : Int} {stop stop' : List Call → Prop}
  {D D' : List Call → Machine → Prop} {es : List Event} {out : Ending Machine Stop}
  {c c' : List (Code Instr)} {m m' : Machine}

theorem Safe.stopped {f : Stop} (h : Safe rbp stop D es (.stopped f))
    (hstop : ∀ cs, stop cs → stop' cs) : Safe rbp stop' D' es (.stopped f) := by
  rcases f with ⟨message, m⟩ | m | -
  · exact ⟨h.1, hstop _ h.2.1, h.2.2⟩
  · exact ⟨h.1, hstop _ h.2.1, h.2.2⟩
  · exact ⟨h.1, hstop _ h.2⟩

theorem Safe.mono (h : Safe rbp stop D es out) (hstop : ∀ cs, stop cs → stop' cs)
    (hD : ∀ cs m, D cs m → D' cs m) : Safe rbp stop' D' es out := by
  cases out with
  | done m => exact ⟨h.1, hD _ _ h.2⟩
  | stopped f => exact h.stopped hstop

theorem Safe.prepend (halign : ∀ event ∈ es, event.rsp % 16 = 0) {es' : List Event}
    (h : Safe rbp (fun cs => stop (calls es ++ cs)) (fun cs => D (calls es ++ cs)) es' out) :
    Safe rbp stop D (es ++ es') out := by
  have hall (hrest : ∀ event ∈ es', event.rsp % 16 = 0) : ∀ event ∈ es ++ es',
      event.rsp % 16 = 0 := by
    intro event hevent
    rcases mem_append.mp hevent with hevent | hevent
    · exact halign event hevent
    · exact hrest event hevent
  rcases out with m | (⟨message, m⟩ | m | -)
  · exact ⟨hall h.1, calls_append es es' ▸ h.2⟩
  · exact ⟨hall h.1, calls_append es es' ▸ h.2.1, h.2.2⟩
  · exact ⟨hall h.1, calls_append es es' ▸ h.2.1, h.2.2⟩
  · exact ⟨hall h.1, calls_append es es' ▸ h.2⟩

theorem safe_append (h : wp (step A) c m (Safe rbp stop' D')) (hstop : ∀ cs, stop' cs → stop cs)
    (hrest : ∀ cs m', D' cs m' →
      wp (step A) c' m' (Safe rbp (fun cs' => stop (cs ++ cs')) fun cs' => D (cs ++ cs'))) :
    wp (step A) (c ++ c') m (Safe rbp stop D) := by
  rw [wp_append]
  refine h.mono fun es out hsafe => ?_
  rcases out with m₁ | f
  · exact (hrest _ m₁ hsafe.2).mono fun es' out' => Safe.prepend hsafe.1
  · exact hsafe.stopped hstop

variable {Q : List Event → Ending Machine Stop → Prop}

theorem wp_goes {i : Instr} (h : step A i m = Goes m') :
    wp (step A) (.op i :: c) m Q ↔ wp (step A) c m' Q := by
  rw [wp_cons, wp_op, h]
  constructor
  · exact fun hall => hall [] _ ⟨rfl, rfl⟩
  · rintro hrest es out ⟨rfl, rfl⟩
    exact hrest

theorem safe_nil (h : D [] m) : wp (step A) [] m (Safe rbp stop D) := by
  rw [wp_nil]
  exact ⟨fun event hevent => (not_mem_nil hevent).elim, h⟩

theorem safe_failIf {message : String} (hstop : stop []) (hrsp : m.rsp % 16 = 0)
    (hrbp : m.rbp = rbp) (hrest : wp (step A) c m (Safe rbp stop D)) :
    wp (step A) (.op (.failIf message) :: c) m (Safe rbp stop D) := by
  rw [wp_cons, wp_op]
  rintro es out ⟨rfl, rfl | rfl⟩
  · exact hrest
  · exact ⟨fun event hevent => (not_mem_nil hevent).elim, hstop, hrsp, hrbp⟩

theorem safe_compare {imms : List Int}
    (hrest : ∀ rdx, wp (step A) c { m with rdx } (Safe rbp stop D)) :
    wp (step A) (.op (.compare imms) :: c) m (Safe rbp stop D) := by
  rw [wp_cons, wp_op]
  rintro es out ⟨rdx, rfl, rfl⟩
  exact hrest rdx

theorem safe_failWhen {checked : Bool} {message : String}
    (h : checked = true → stop [] ∧ m.rsp % 16 = 0) (hrbp : m.rbp = rbp)
    (hrest : wp (step A) c m (Safe rbp stop D)) :
    wp (step A) (failWhen checked message ++ c) m (Safe rbp stop D) := by
  cases checked with
  | false => exact hrest
  | true => exact safe_failIf (h rfl).1 (h rfl).2 hrbp hrest

theorem emitDivision_safe {operator : BinaryOp} {leftType type : PEType} (hstop : stop [])
    (hrsp : m.rsp % 16 = 0) (hrbp : m.rbp = rbp)
    (hdone : ∀ rdx, D [] { m with
      rax := A.mask type.bits (A.binary operator leftType type m.rax m.rcx), rdx := rdx }) :
    wp (step A) (emitDivision operator leftType type) m (Safe rbp stop D) := by
  have hend (rdx : UInt64) :
      wp (step A) (code [.binary operator leftType type, .mask type.bits]) { m with rdx := rdx }
        (Safe rbp stop D) := by
    rw [code_cons, wp_goes rfl, code_cons, wp_goes rfl]
    exact safe_nil (hdone rdx)
  refine safe_compare fun rdx => safe_failIf hstop hrsp hrbp ?_
  split
  · exact hend rdx
  · refine safe_compare fun rdx => wp_branch_cons.mpr ⟨hend rdx, ?_⟩
    refine safe_compare fun rdx => wp_branch_cons.mpr ⟨hend rdx, ?_⟩
    rw [code_cons, cons_append, wp_cons, wp_op]
    rintro es out ⟨rfl, rfl⟩
    exact ⟨fun event hevent => (not_mem_nil hevent).elim, hstop, hrsp, hrbp⟩

theorem emitOperator_safe {operator : BinaryOp} {leftType type : PEType}
    (hoperator : ¬ (operator = .and ∨ operator = .or))
    (hfails : binaryFails operator leftType → stop [] ∧ m.rsp % 16 = 0) (hrbp : m.rbp = rbp)
    (hdone : ∀ rdx, D [] { m with
      rax := binaryValue A operator leftType type m.rax m.rcx, rdx := rdx }) :
    wp (step A) (emitOperator operator leftType type) m (Safe rbp stop D) := by
  cases operator
  case and | or => simp at hoperator
  case plus | minus | star =>
    rw [emitOperator, wp_goes rfl]
    refine safe_failWhen (fun hsigned => hfails (by simpa [binaryFails] using hsigned)) hrbp ?_
    rw [code_cons, wp_goes rfl]
    exact safe_nil (hdone m.rdx)
  case slash | percent =>
    obtain ⟨hstop, hrsp⟩ := hfails trivial
    exact emitDivision_safe hstop hrsp hrbp hdone
  case shl | shr =>
    obtain ⟨hstop, hrsp⟩ := hfails trivial
    refine safe_compare fun rdx => safe_failIf hstop hrsp hrbp ?_
    rw [map_cons, wp_goes rfl, map_cons, wp_goes rfl]
    exact safe_nil (hdone rdx)
  case bitand | bitxor | pipe =>
    rw [emitOperator, code_cons, wp_goes rfl, code_cons, wp_goes rfl]
    exact safe_nil (hdone m.rdx)
  all_goals
    refine (wp_goes rfl).mpr (safe_nil (hdone m.rdx))

theorem emitUnsignedConversionCheck_safe {argType : PEType} {bits : Nat}
    (hfails : conversionFails argType bits → stop [] ∧ m.rsp % 16 = 0) (hrbp : m.rbp = rbp)
    (hdone : ∀ rcx rdx, D [] { m with rax := A.mask bits m.rax, rcx := rcx, rdx := rdx }) :
    wp (step A) (emitUnsignedConversionCheck argType bits ++ code [.mask bits]) m
      (Safe rbp stop D) := by
  have hend (rcx rdx : UInt64) :
      wp (step A) (code [.mask bits]) { m with rcx := rcx, rdx := rdx } (Safe rbp stop D) := by
    rw [code_cons, wp_goes rfl]
    exact safe_nil (hdone rcx rdx)
  have hwidth (rdx : UInt64) {inputBits : Nat}
      (hfails : ¬ (inputBits ≤ bits ∨ 64 ≤ bits) → stop [] ∧ m.rsp % 16 = 0) :
      wp (step A) ((if inputBits ≤ bits ∨ 64 ≤ bits then []
        else code [.moveRcxImmediate (UInt64.ofNat (2 ^ 64 - 2 ^ bits)), .compare [],
          .failIf "value is outside unsigned range"]) ++ code [.mask bits])
        { m with rdx := rdx } (Safe rbp stop D) := by
    split
    · exact hend m.rcx rdx
    · next hnarrow =>
      obtain ⟨hstop, hrsp⟩ := hfails hnarrow
      rw [code_cons, cons_append, wp_goes rfl]
      exact safe_compare fun rdx => safe_failIf hstop hrsp hrbp (hend _ rdx)
  rw [emitUnsignedConversionCheck, append_assoc]
  by_cases hint : argType = .int
  · obtain ⟨hstop, hrsp⟩ := hfails (.inl hint)
    rw [if_pos hint, if_pos hint]
    exact safe_compare fun rdx => safe_failIf hstop hrsp hrbp (hwidth rdx fun _ => ⟨hstop, hrsp⟩)
  · rw [if_neg hint, if_neg hint]
    refine hwidth m.rdx fun hnarrow => hfails (.inr ?_)
    omega

/-! ## Calls -/

theorem safe_callImport {routine : Routine} (hrsp : m.rsp % 16 = 0)
    (hrest : ∀ m', Returns m (m.rsp + routine.reach) m' → wp (step A) c m' (Safe rbp stop D)) :
    wp (step A) (.op (.callImport routine) :: c) m (Safe rbp stop D) := by
  rw [wp_cons, wp_op]
  rintro es out ⟨m', hreturns, rfl, rfl⟩
  refine (hrest m' hreturns).mono fun es' out' h => Safe.prepend ?_ h
  intro event hevent
  obtain rfl := mem_singleton.mp hevent
  exact hrsp

variable {n : Nat}

theorem safe_callFunction {name : String} (hrsp : m.rsp % 16 = 0)
    (hstop : stop [(name, m.parameters n, none)])
    (hrest : ∀ m', Returns m (m.rsp + 32 + 8 * (n - 4 : Nat)) m' →
      wp (step A) c m' (Safe rbp (fun cs => stop ((name, m.parameters n, some m'.rax) :: cs))
        fun cs => D ((name, m.parameters n, some m'.rax) :: cs))) :
    wp (step A) (.op (.callFunction name n) :: c) m (Safe rbp stop D) := by
  have halign (result : Option UInt64) :
      ∀ event ∈ [Event.function m.rsp name (m.parameters n) result], event.rsp % 16 = 0 := by
    intro event hevent
    obtain rfl := mem_singleton.mp hevent
    exact hrsp
  rw [wp_cons, wp_op]
  rintro es out (⟨m', hreturns, rfl, rfl⟩ | ⟨rfl, rfl⟩)
  · exact (hrest m' hreturns).mono fun es' out' h => Safe.prepend (halign _) h
  · exact ⟨halign none, hstop⟩

theorem signedByte_eq (h : n < 128) : signedByte n = n := by
  rw [signedByte, Nat.mod_eq_of_lt (by omega), if_pos h]

theorem Returns.refl (m : Machine) (top : Int) : Returns m top m := ⟨rfl, rfl, fun _ _ => rfl⟩

theorem Returns.trans {top top' : Int} {m₁ m₂ m₃ : Machine} (h : Returns m₁ top m₂)
    (h' : Returns m₂ top' m₃) (hle : top' ≤ top) : Returns m₁ top m₃ :=
  ⟨h'.rsp.trans h.rsp, h'.rbp.trans h.rbp, fun a ha => (h'.mem a (by omega)).trans (h.mem a ha)⟩

theorem emitPEStringFromInteger_safe {depth : Nat} {unsigned : Bool}
    (hdepth : (m.rsp + depth) % 16 = 0) (hstop : stop []) (hrbp : m.rbp = rbp)
    (hdone : ∀ m', Returns m m.rsp m' → D [] m') :
    wp (step A) (emitPEStringFromInteger depth unsigned) m (Safe rbp stop D) := by
  rw [emitPEStringFromInteger]
  generalize hout : (if (depth + 8) % 16 ≠ 0 then 32 + (16 - (depth + 8) % 16) else 32) = outgoing
  have hrange : 32 ≤ outgoing ∧ outgoing < 64 := by
    rw [← hout]
    split <;> omega
  have haligned : (m.rsp - 8 - outgoing) % 16 = 0 := by
    rw [← hout]
    split <;> omega
  simp only [code_cons, code_nil]
  rw [wp_goes rfl, wp_goes rfl]
  simp only [Machine.store, signedByte_eq (by omega : outgoing < 128)]
  -- the calls find an aligned stack, and leave the number above their home area
  refine safe_callImport haligned fun m₁ h₁ => safe_callImport ?_ fun m₂ h₂ => ?_
  · rw [h₁.rsp]
    exact haligned
  have hrsp : m₂.rsp = m.rsp - 8 - outgoing := h₂.rsp.trans h₁.rsp
  have hrbp₂ : m₂.rbp = m.rbp := h₂.rbp.trans h₁.rbp
  have hmem : ∀ a, m.rsp ≤ a → m₂.mem a = m.mem a := by
    intro a ha
    have hbelow : m.rsp - 8 - outgoing + 32 ≤ a := by omega
    have hfirst := h₁.mem a hbelow
    have hsecond := h₂.mem a (h₁.rsp ▸ hbelow)
    rw [hsecond, hfirst]
    exact Function.update_of_ne (by omega) _ _
  refine safe_compare fun rdx => ?_
  rw [wp_cons, wp_op]
  rintro es out ⟨rfl, rfl | rfl⟩
  · show wp (step A) _ _ (Safe rbp stop D)
    rw [wp_goes rfl, wp_goes rfl, wp_op]
    rintro es out ⟨rax, rfl, rfl⟩
    refine ⟨fun event hevent => (not_mem_nil hevent).elim, hdone _ ⟨?_, hrbp₂, hmem⟩⟩
    simp only [signedByte_eq (by omega : outgoing + 8 < 128), hrsp]
    omega
  · exact ⟨fun event hevent => (not_mem_nil hevent).elim, hstop, hrbp₂.trans hrbp⟩

theorem emitStackArgs_wp {outgoing index n : Nat} (hindex : 4 ≤ index)
    (hsource : outgoing + (index + n) * 8 ≤ 128) (htarget : 32 + (index + n - 4) * 8 ≤ outgoing)
    (hrest : ∀ m', m'.rsp = m.rsp → m'.rbp = m.rbp →
      (∀ a, a < m.rsp + 32 + (index - 4 : Nat) * 8 ∨ m.rsp + outgoing ≤ a → m'.mem a = m.mem a) →
      (∀ i, index ≤ i → i < index + n → m'.mem (m.rsp + 32 + (i - 4 : Nat) * 8) =
        m.mem (m.rsp + outgoing + i * 8)) → wp (step A) c m' Q) :
    wp (step A) (code (emitStackArgs outgoing index n) ++ c) m Q := by
  induction n generalizing index m with
  | zero => exact hrest m rfl rfl (fun _ _ => rfl) fun i hi hi' => by omega
  | succ n ih =>
    rw [emitStackArgs, code_cons, code_cons, cons_append, cons_append, wp_goes rfl,
      wp_goes rfl]
    simp only [Machine.store, signedByte_eq (by omega : outgoing + index * 8 < 128),
      signedByte_eq (by omega : 32 + (index - 4) * 8 < 128)]
    refine ih (by omega) (by omega) (by omega) ?_
    intro m' hrsp hrbp hmem hcopied
    simp only at hrsp hrbp hmem hcopied
    refine hrest m' hrsp hrbp ?_ ?_
    · intro a ha
      rw [hmem a (by omega)]
      exact Function.update_of_ne (by omega) _ _
    · intro i hi hi'
      by_cases hfirst : i = index
      · subst hfirst
        rw [hmem _ (by omega)]
        have haddress : m.rsp + 32 + (i - 4 : Nat) * 8 = m.rsp + (32 + (i - 4) * 8 : Nat) := by
          omega
        have hvalue : m.rsp + (outgoing + i * 8 : Nat) = m.rsp + outgoing + i * 8 := by omega
        rw [haddress, Function.update_self, hvalue]
      · rw [hcopied i (by omega) (by omega)]
        exact Function.update_of_ne (by omega) _ _

theorem emitRegisterArgs_wp {outgoing n : Nat} (hsource : outgoing + 32 ≤ 128)
    (hrest : ∀ m', m'.rsp = m.rsp → m'.rbp = m.rbp → m'.mem = m.mem →
      (∀ i, i < n → i < 4 → m'.enter.argument i = m.mem (m.rsp + outgoing + i * 8)) →
      wp (step A) c m' Q) :
    wp (step A) (code (emitRegisterArgs outgoing n) ++ c) m Q := by
  have hdisp (i : Nat) (hi : i < 4) : m.rsp + signedByte (outgoing + i * 8) =
      m.rsp + outgoing + i * 8 := by
    rw [signedByte_eq (by omega)]
    omega
  rcases n with _ | _ | _ | _ | n
  · exact hrest m rfl rfl rfl fun i hi => by omega
  · refine (wp_goes rfl).mpr ?_
    refine hrest _ rfl rfl rfl fun i hi hi' => ?_
    obtain rfl : i = 0 := by omega
    exact congrArg m.mem (hdisp 0 (by omega))
  · refine (wp_goes rfl).mpr ((wp_goes rfl).mpr ?_)
    refine hrest _ rfl rfl rfl fun i hi hi' => ?_
    obtain rfl | rfl : i = 0 ∨ i = 1 := by omega
    all_goals exact congrArg m.mem (hdisp _ (by omega))
  · refine (wp_goes rfl).mpr ((wp_goes rfl).mpr ((wp_goes rfl).mpr ?_))
    refine hrest _ rfl rfl rfl fun i hi hi' => ?_
    obtain rfl | rfl | rfl : i = 0 ∨ i = 1 ∨ i = 2 := by omega
    all_goals exact congrArg m.mem (hdisp _ (by omega))
  · have hfour : emitRegisterArgs outgoing (n + 4) = emitRegisterArgs outgoing 4 := by
      simp [emitRegisterArgs]
    rw [hfour]
    refine (wp_goes rfl).mpr ((wp_goes rfl).mpr ((wp_goes rfl).mpr ((wp_goes rfl).mpr ?_)))
    refine hrest _ rfl rfl rfl fun i hi hi' => ?_
    obtain rfl | rfl | rfl | rfl : i = 0 ∨ i = 1 ∨ i = 2 ∨ i = 3 := by omega
    all_goals exact congrArg m.mem (hdisp _ (by omega))

theorem spillBytes_spec (hn : n ≤ directPEWindowsMaxArgs) :
    n * 8 ≤ spillBytes n ∧ spillBytes n < 128 ∧ spillBytes n % 16 = 0 := by
  rw [directPEWindowsMaxArgs] at hn
  rw [spillBytes]
  omega

theorem outgoingBytes_spec {depth n : Nat} (hdepth : depth % 8 = 0)
    (hn : n ≤ directPEWindowsMaxArgs) (height : n = directPEWindowsMaxArgs → depth % 16 = 0) :
    32 + (n - 4) * 8 ≤ outgoingBytes depth n ∧ outgoingBytes depth n ≤ 64 ∧
      (depth + outgoingBytes depth n) % 16 = 0 := by
  rw [directPEWindowsMaxArgs] at hn height
  simp only [outgoingBytes]
  split <;> omega

theorem argument_stack {i : Nat} (hi : 4 ≤ i) :
    m.argument i = m.mem (m.rbp + signedByte (48 + (i - 4) * 8)) := by
  obtain ⟨j, rfl⟩ := Nat.exists_eq_add_of_le' hi
  rfl

theorem argument_storeArg {index i : Nat} (hi : i < directPEWindowsMaxArgs) :
    (m.storeArg index).argument i = m.argument i := by
  rw [directPEWindowsMaxArgs] at hi
  by_cases hregister : i < 4
  · obtain rfl | rfl | rfl | rfl : i = 0 ∨ i = 1 ∨ i = 2 ∨ i = 3 := by omega
    all_goals rfl
  · rw [argument_stack (by omega), argument_stack (by omega), signedByte_eq (by omega)]
    rw [Machine.storeArg, parameterSlot]
    exact Function.update_of_ne (by simp only [Machine.store]; omega) _ _

theorem storeArgs_slots (hn : n ≤ directPEWindowsMaxArgs) :
    ((List.range n).foldl Machine.storeArg m).rbp = m.rbp ∧
      (∀ i < directPEWindowsMaxArgs,
        ((List.range n).foldl Machine.storeArg m).argument i = m.argument i) ∧
      ∀ i < n, ((List.range n).foldl Machine.storeArg m).mem (m.rbp - parameterSlot i) =
        m.argument i := by
  induction n with
  | zero => exact ⟨rfl, fun i _ => rfl, fun i hi => by omega⟩
  | succ n ih =>
    obtain ⟨hrbp, harguments, hslots⟩ := ih (by omega)
    rw [range_succ, foldl_append, foldl_cons, foldl_nil]
    generalize (List.range n).foldl Machine.storeArg m = m' at hrbp harguments hslots
    refine ⟨hrbp, fun i hi => (argument_storeArg hi).trans (harguments i hi), ?_⟩
    intro i hi
    rw [Machine.storeArg, hrbp]
    by_cases hlast : i = n
    · rw [hlast, ← harguments n hn]
      exact Function.update_self ..
    · rw [← hslots i (by omega)]
      simp only [Machine.store, parameterSlot]
      exact Function.update_of_ne (by omega) _ _

theorem parameters_eq (hn : n ≤ directPEWindowsMaxArgs) :
    m.parameters n = (List.range n).map m.enter.argument := by
  refine map_congr_left fun i hi => ?_
  exact (storeArgs_slots hn).2.2 i (mem_range.mp hi)

theorem emitCall_safe {depth n : Nat} {name : String} {vs : List UInt64} (hlength : vs.length = n)
    (hn : n ≤ directPEWindowsMaxArgs) (height : n = directPEWindowsMaxArgs → depth % 16 = 0)
    (hdepth : depth % 8 = 0) (hrsp : (m.rsp + depth) % 16 = 0)
    (hargs : ∀ i (hi : i < vs.length), m.mem (m.rsp + i * 8) = vs.get ⟨i, hi⟩)
    (hstop : stop [(name, vs, none)])
    (hdone : ∀ m', m'.rsp = m.rsp + spillBytes n → m'.rbp = m.rbp →
      (∀ a, m.rsp ≤ a → m'.mem a = m.mem a) → D [(name, vs, some m'.rax)] m') :
    wp (step A) (emitCall depth name n) m (Safe rbp stop D) := by
  obtain ⟨htarget, hroom, haligned⟩ := outgoingBytes_spec hdepth hn height
  obtain ⟨-, hspill, -⟩ := spillBytes_spec hn
  rw [emitCall]
  generalize outgoingBytes depth n = outgoing at htarget hroom haligned
  have hcount := hn
  simp only [code_cons, code_append, append_assoc, cons_append, nil_append]
  rw [wp_goes rfl]
  simp only [signedByte_eq (by omega : outgoing < 128)]
  refine emitStackArgs_wp (by omega) (by omega) (by omega) ?_
  intro m₁ hrsp₁ hrbp₁ hmem₁ hcopied
  simp only at hrsp₁ hrbp₁ hmem₁ hcopied
  refine emitRegisterArgs_wp (by omega) ?_
  intro m₂ hrsp₂ hrbp₂ hmem₂ hloaded
  -- the arguments that the callee reads are those in the words above
  have hword : ∀ i (hi : i < vs.length), m.mem (m.rsp - outgoing + outgoing + i * 8) =
      vs.get ⟨i, hi⟩ := by
    intro i hi
    rw [Int.sub_add_cancel]
    exact hargs i hi
  have hargument : ∀ i (hi : i < vs.length), m₂.enter.argument i = vs.get ⟨i, hi⟩ := by
    intro i hi
    by_cases hregister : i < 4
    · rw [hloaded i (by omega) hregister, hrsp₁, hmem₁ _ (by omega)]
      exact hword i hi
    · rw [argument_stack (by omega), signedByte_eq (by omega)]
      simp only [Machine.enter, hmem₂, hrsp₂, hrsp₁]
      rw [← hword _ hi, ← hcopied i (by omega) (by omega)]
      congr 1
      omega
  have hparameters : m₂.parameters n = vs := by
    rw [parameters_eq hcount]
    refine ext_getElem (by simp [hlength]) fun i hi hi' => ?_
    simpa using hargument i hi'
  refine safe_callFunction (by rw [hrsp₂, hrsp₁]; omega) (hparameters ▸ hstop) ?_
  intro m₃ hreturns
  rw [hparameters, wp_goes rfl]
  have hrsp₃ : m₃.rsp = m.rsp - outgoing := hreturns.rsp.trans (hrsp₂.trans hrsp₁)
  have hrbp₃ : m₃.rbp = m.rbp := hreturns.rbp.trans (hrbp₂.trans hrbp₁)
  have hmem₃ : ∀ a, m.rsp ≤ a → m₃.mem a = m.mem a := by
    intro a ha
    rw [hreturns.mem a (by rw [hrsp₂, hrsp₁]; omega), hmem₂, hmem₁ a (by omega)]
  simp only [signedByte_eq (by omega : outgoing < 128), hrsp₃]
  split
  · rw [code_cons, wp_goes rfl]
    simp only [signedByte_eq hspill]
    refine safe_nil (hdone { m₃ with rsp := m.rsp - outgoing + outgoing + spillBytes n } ?_ hrbp₃
      hmem₃)
    simp only
    omega
  · refine safe_nil (hdone { m₃ with rsp := m.rsp - outgoing + outgoing } ?_ hrbp₃ hmem₃)
    simp only
    omega

end Parts

/-! ## Expressions -/

section Expressions

variable {A : Operations} {env : Nat → UInt64} {depth : Nat} {m m' : Machine}

/-- The slots hold the values of variables, from some address on. -/
def Slots (env : Nat → UInt64) (offsets : List Nat) (top : Int) (m : Machine) : Prop :=
  ∀ offset ∈ offsets, top ≤ m.rbp - offset ∧ m.mem (m.rbp - offset) = env offset

theorem Slots.mono {offsets offsets' : List Nat} {top top' : Int} (h : Slots env offsets top m)
    (hsub : ∀ offset ∈ offsets', offset ∈ offsets) (hle : top' ≤ top) (hrbp : m'.rbp = m.rbp)
    (hmem : ∀ a, top ≤ a → m'.mem a = m.mem a) : Slots env offsets' top' m' := by
  intro offset hoffset
  obtain ⟨htop, hvalue⟩ := h offset (hsub offset hoffset)
  rw [hrbp]
  exact ⟨Int.le_trans hle htop, (hmem _ htop).trans hvalue⟩

/-- Behind the code of an expression the stack is as before, and its value is in `rax`. -/
def Computed (A : Operations) (env : Nat → UInt64) (e : PEExpr) (m : Machine) (cs : List Call)
    (m' : Machine) : Prop :=
  Returns m m.rsp m' ∧ evaluates A env e cs (some m'.rax)

/-- All runs of the code of an expression keep the stack. -/
def ExprSafe (A : Operations) (env : Nat → UInt64) (depth : Nat) (e : PEExpr) : Prop :=
  ∀ m : Machine, (m.rsp + depth) % 16 = 0 → Slots env e.slots m.rsp m →
    wp (step A) (emitExpr depth e) m
      (Safe m.rbp (fun cs => evaluates A env e cs none) (Computed A env e m))

/-- Behind the code of arguments they stand in their words, below some address. -/
def Spilled (A : Operations) (env : Nat → UInt64) (index : Nat) (args : List PEExpr) (top : Int)
    (m : Machine) (cs : List Call) (m' : Machine) : Prop :=
  m'.rsp = m.rsp ∧ m'.rbp = m.rbp ∧
    (∀ a, m.rsp ≤ a → a < m.rsp + index * 8 ∨ top ≤ a → m'.mem a = m.mem a) ∧
    ∃ vs, evaluatesArgs A env args cs (some vs) ∧ vs.length = args.length ∧
      ∀ j (hj : j < vs.length), m'.mem (m.rsp + (index + j : Nat) * 8) = vs.get ⟨j, hj⟩

theorem unary_safe {operator : UnaryOp} {type : PEType} {operand : PEExpr}
    (h : ExprSafe A env depth operand) (hframed : unaryFails operator type → depth % 16 = 0) :
    ExprSafe A env depth (.unary operator type operand) := by
  intro m hrsp hslots
  refine safe_append (h m hrsp hslots) (fun cs hcs => ⟨none, hcs, rfl⟩) ?_
  intro cs m₁ ⟨hreturns, hvalue⟩
  have hdone : Computed A env (.unary operator type operand) m cs
      { m₁ with rax := unaryValue A operator type m₁.rax } :=
    ⟨⟨hreturns.rsp, hreturns.rbp, hreturns.mem⟩, some m₁.rax, hvalue, .inl rfl⟩
  rw [← append_nil cs] at hdone
  cases operator with
  | plus => exact safe_nil hdone
  | bang =>
    rw [emitUnaryOperator, code_cons, wp_goes rfl]
    exact safe_nil hdone
  | bitnot =>
    rw [emitUnaryOperator, code_cons, wp_goes rfl, code_cons, wp_goes rfl]
    exact safe_nil hdone
  | minus =>
    rw [emitUnaryOperator, wp_goes rfl, ← append_nil (failWhen _ _)]
    refine safe_failWhen ?_ hreturns.rbp (safe_nil hdone)
    intro hint
    have hfails : unaryFails .minus type := ⟨rfl, of_decide_eq_true hint⟩
    refine ⟨⟨some m₁.rax, (append_nil cs).symm ▸ hvalue, .inr ⟨hfails, rfl⟩⟩, ?_⟩
    have hdepth := hframed hfails
    have hsame := hreturns.rsp
    simp only
    omega

variable {arg : PEExpr}

theorem convert_safe {argType : PEType} {bits : Nat} (h : ExprSafe A env depth arg)
    (hframed : conversionFails argType bits → depth % 16 = 0) :
    ExprSafe A env depth (.convert argType bits arg) := by
  intro m hrsp hslots
  refine safe_append (h m hrsp hslots) (fun cs hcs => ⟨none, hcs, rfl⟩) ?_
  intro cs m₁ ⟨hreturns, hvalue⟩
  refine emitUnsignedConversionCheck_safe ?_ hreturns.rbp ?_
  · intro hfails
    refine ⟨⟨some m₁.rax, (append_nil cs).symm ▸ hvalue, .inr ⟨hfails, rfl⟩⟩, ?_⟩
    have hdepth := hframed hfails
    have hsame := hreturns.rsp
    omega
  · intro rcx rdx
    rw [append_nil]
    exact ⟨⟨hreturns.rsp, hreturns.rbp, hreturns.mem⟩, some m₁.rax, hvalue, .inl rfl⟩

theorem str_safe {type : PEType} (h : ExprSafe A env depth arg) :
    ExprSafe A env depth (.str type arg) := by
  intro m hrsp hslots
  refine safe_append (h m hrsp hslots) (fun cs hcs => .inl ⟨hcs, rfl⟩) ?_
  intro cs m₁ ⟨hreturns, hvalue⟩
  have hnumber (unsigned : Bool) (htype : ∀ r, stringValue A m₁.rax r type) :
      wp (step A) (emitPEStringFromInteger depth unsigned) m₁
        (Safe m.rbp (fun cs' => evaluates A env (.str type arg) (cs ++ cs') none)
          fun cs' => Computed A env (.str type arg) m (cs ++ cs')) := by
    refine emitPEStringFromInteger_safe (hreturns.rsp ▸ hrsp) ?_ hreturns.rbp ?_
    · exact .inr ⟨m₁.rax, (append_nil cs).symm ▸ hvalue, htype none⟩
    · intro m' hreturns'
      rw [append_nil]
      exact ⟨hreturns.trans hreturns' (Int.le_of_eq hreturns.rsp), .inr ⟨m₁.rax, hvalue, htype _⟩⟩
  cases type with
  | string =>
    refine safe_nil ?_
    rw [append_nil]
    exact ⟨hreturns, .inr ⟨m₁.rax, hvalue, rfl⟩⟩
  | bool =>
    refine safe_compare fun rdx => wp_branch_cons.mpr ⟨?_, ?_⟩
    · rw [code_cons, cons_append, wp_goes rfl]
      refine safe_nil ?_
      rw [append_nil]
      exact ⟨⟨hreturns.rsp, hreturns.rbp, hreturns.mem⟩, .inr ⟨m₁.rax, hvalue, .inr rfl⟩⟩
    · rw [code_cons, cons_append, wp_goes rfl]
      refine safe_nil ?_
      rw [append_nil]
      exact ⟨⟨hreturns.rsp, hreturns.rbp, hreturns.mem⟩, .inr ⟨m₁.rax, hvalue, .inl rfl⟩⟩
  | int => exact hnumber false fun r => trivial
  | uint8 | uint16 | uint32 | uint64 => exact hnumber true fun r => trivial

theorem logical_safe {operator : BinaryOp} {leftType type : PEType} {left right : PEExpr}
    (hoperator : operator = .and ∨ operator = .or) (hleft : ExprSafe A env depth left)
    (hright : ExprSafe A env depth right) :
    ExprSafe A env depth (.binary operator leftType type left right) := by
  intro m hrsp hslots
  have hslotsLeft : Slots env left.slots m.rsp m :=
    hslots.mono (fun _ h => mem_append_left _ h) (Int.le_refl _) rfl fun _ _ => rfl
  rw [emitExpr, if_pos hoperator]
  refine safe_append (hleft m hrsp hslotsLeft) (fun cs hcs => .inl ⟨hcs, rfl⟩) ?_
  intro cs m₁ ⟨hreturns, hvalue⟩
  refine safe_compare fun rdx => wp_branch.mpr ⟨?_, ?_⟩
  · rw [code_cons, wp_goes rfl]
    refine safe_nil ⟨⟨hreturns.rsp, hreturns.rbp, hreturns.mem⟩, .inr ⟨m₁.rax, cs, hvalue, ?_⟩⟩
    rw [if_pos hoperator]
    exact .inl ⟨append_nil cs, rfl⟩
  · have hkept : Returns m m.rsp { m₁ with rdx := rdx } :=
      ⟨hreturns.rsp, hreturns.rbp, hreturns.mem⟩
    generalize { m₁ with rdx := rdx } = m₂ at hkept
    have hright := hright m₂ (hkept.rsp ▸ hrsp)
      (hslots.mono (fun _ h => mem_append_right _ h) (Int.le_of_eq hkept.rsp) hkept.rbp
        hkept.mem)
    rw [hkept.rbp] at hright
    refine safe_append hright ?_ ?_
    · intro cs' hcs'
      refine .inr ⟨m₁.rax, cs, hvalue, ?_⟩
      rw [if_pos hoperator]
      exact .inr ⟨none, cs', hcs', rfl, rfl⟩
    · intro cs' m₃ ⟨hreturns', hvalue'⟩
      rw [code_cons, wp_goes rfl]
      have hboth := hkept.trans hreturns' (Int.le_of_eq hkept.rsp)
      refine safe_nil ⟨⟨hboth.rsp, hboth.rbp, hboth.mem⟩, .inr ⟨m₁.rax, cs, hvalue, ?_⟩⟩
      rw [if_pos hoperator, append_nil]
      exact .inr ⟨some m₃.rax, cs', hvalue', rfl, rfl⟩

theorem binary_safe {operator : BinaryOp} {leftType type : PEType} {left right : PEExpr}
    (hoperator : ¬ (operator = .and ∨ operator = .or)) (hleft : ExprSafe A env depth left)
    (hright : ExprSafe A env (depth + 8) right)
    (hframed : binaryFails operator leftType → depth % 16 = 0) :
    ExprSafe A env depth (.binary operator leftType type left right) := by
  intro m hrsp hslots
  have hslotsLeft : Slots env left.slots m.rsp m :=
    hslots.mono (fun _ h => mem_append_left _ h) (Int.le_refl _) rfl fun _ _ => rfl
  rw [emitExpr, if_neg hoperator]
  refine safe_append (hleft m hrsp hslotsLeft) (fun cs hcs => .inl ⟨hcs, rfl⟩) ?_
  intro cs m₁ ⟨hreturns, hvalue⟩
  rw [code_cons, code_nil, cons_append, nil_append, wp_goes rfl]
  -- the value of the left operand is below everything that has to be kept
  generalize hpushed : { m₁.store (m₁.rsp - 8) m₁.rax with rsp := m₁.rsp - 8 } = m₂
  have hrsp₂ : m₂.rsp = m.rsp - 8 := by rw [← hpushed, ← hreturns.rsp]
  have hrbp₂ : m₂.rbp = m.rbp := by rw [← hpushed, ← hreturns.rbp]; rfl
  have hmem₂ : ∀ a, m.rsp ≤ a → m₂.mem a = m.mem a := by
    intro a ha
    rw [← hreturns.mem a ha, ← hpushed]
    have hsame := hreturns.rsp
    exact Function.update_of_ne (by omega) _ _
  have htop : m₂.mem (m.rsp - 8) = m₁.rax := by
    rw [← hpushed, ← hreturns.rsp]
    exact Function.update_self ..
  have hslotsRight : Slots env right.slots m₂.rsp m₂ :=
    hslots.mono (fun _ h => mem_append_right _ h) (by omega) hrbp₂ hmem₂
  have hright := hright m₂ (by omega) hslotsRight
  rw [hrbp₂] at hright
  refine safe_append hright ?_ ?_
  · intro cs' hcs'
    refine .inr ⟨m₁.rax, cs, hvalue, ?_⟩
    rw [if_neg hoperator]
    exact ⟨none, cs', hcs', rfl, rfl⟩
  intro cs' m₃ ⟨hreturns', hvalue'⟩
  rw [code_cons, cons_append, wp_goes rfl, code_cons, cons_append, wp_goes rfl, code_nil,
    nil_append]
  have hpopped : m₃.mem m₃.rsp = m₁.rax := by
    rw [hreturns'.rsp, hreturns'.mem _ (Int.le_refl _), hrsp₂, htop]
  have hrsp₃ : m₃.rsp + 8 = m.rsp := by
    have hsame := hreturns'.rsp
    omega
  have hkept : Returns m m.rsp { m₃ with rsp := m₃.rsp + 8 } := by
    refine ⟨hrsp₃, hreturns'.rbp.trans hrbp₂, fun a ha => ?_⟩
    rw [← hmem₂ a ha]
    exact hreturns'.mem a (by omega)
  refine emitOperator_safe hoperator ?_ hkept.rbp ?_
  · intro hfails
    have hdepth := hframed hfails
    refine ⟨.inr ⟨m₁.rax, cs, hvalue, ?_⟩, ?_⟩
    · rw [if_neg hoperator, append_nil]
      exact ⟨some m₃.rax, cs', hvalue', rfl, .inr ⟨hfails, rfl⟩⟩
    · simp only [hrsp₃]
      omega
  · intro rdx
    refine ⟨⟨hkept.rsp, hkept.rbp, hkept.mem⟩, .inr ⟨m₁.rax, cs, hvalue, ?_⟩⟩
    rw [if_neg hoperator, append_nil]
    refine ⟨some m₃.rax, cs', hvalue', rfl, .inl ?_⟩
    simp only [hpopped]

/-- All runs of the code of arguments keep the stack. -/
def ArgsSafe (A : Operations) (env : Nat → UInt64) (depth : Nat) (args : List PEExpr) : Prop :=
  ∀ (m : Machine) (index : Nat) (top : Int), (m.rsp + depth) % 16 = 0 →
    Slots env (slotsOfArgs args) top m → m.rsp + (index + args.length : Nat) * 8 ≤ top →
    index + args.length ≤ directPEWindowsMaxArgs →
    wp (step A) (emitArgs depth index args) m
      (Safe m.rbp (fun cs => evaluatesArgs A env args cs none) (Spilled A env index args top m))

theorem args_safe_nil : ArgsSafe A env depth [] := by
  intro m index top hrsp hslots htop hcount
  exact safe_nil ⟨rfl, rfl, fun _ _ _ => rfl, [], ⟨rfl, rfl⟩, rfl, fun j hj => by simp at hj⟩

variable {args : List PEExpr}

theorem args_safe_cons (harg : ExprSafe A env depth arg) (hargs : ArgsSafe A env depth args) :
    ArgsSafe A env depth (arg :: args) := by
  intro m index top hrsp hslots htop hcount
  rw [length_cons] at htop hcount
  rw [directPEWindowsMaxArgs] at hcount
  have hslotsArg : Slots env arg.slots m.rsp m :=
    hslots.mono (fun _ h => mem_append_left _ h) (by omega) rfl fun _ _ => rfl
  refine safe_append (harg m hrsp hslotsArg) (fun cs hcs => .inl ⟨hcs, rfl⟩) ?_
  intro cs m₁ ⟨hreturns, hvalue⟩
  rw [code_cons, code_nil, cons_append, nil_append, wp_goes rfl]
  simp only [signedByte_eq (by omega : index * 8 < 128)]
  -- the word of this argument is below those of the others
  generalize hstored : m₁.store (m₁.rsp + (index * 8 : Nat)) m₁.rax = m₂
  have hrsp₂ : m₂.rsp = m.rsp := by rw [← hreturns.rsp, ← hstored]; rfl
  have hrbp₂ : m₂.rbp = m.rbp := by rw [← hreturns.rbp, ← hstored]; rfl
  have hword : m₂.mem (m.rsp + (index : Nat) * 8) = m₁.rax := by
    have haddress : m.rsp + (index : Nat) * 8 = m₁.rsp + (index * 8 : Nat) := by
      rw [hreturns.rsp]
      omega
    rw [haddress, ← hstored]
    exact Function.update_self ..
  have hmem₂ : ∀ a, m.rsp ≤ a → a ≠ m.rsp + (index : Nat) * 8 → m₂.mem a = m.mem a := by
    intro a ha hne
    rw [← hreturns.mem a ha, ← hstored]
    have hsame := hreturns.rsp
    exact Function.update_of_ne (by omega) _ _
  have hslotsArgs : Slots env (slotsOfArgs args) top m₂ :=
    hslots.mono (fun _ h => mem_append_right _ h) (Int.le_refl _) hrbp₂
      fun a ha => hmem₂ a (by omega) (by omega)
  have hargs := hargs m₂ (index + 1) top (by omega) hslotsArgs (by omega)
    (by rw [directPEWindowsMaxArgs]; omega)
  rw [hrbp₂] at hargs
  -- the remaining arguments keep the word of this one
  refine hargs.mono fun es out hsafe => hsafe.mono ?_ ?_
  · exact fun cs' hcs' => .inr ⟨m₁.rax, cs, hvalue, none, cs', hcs', rfl, rfl⟩
  · intro cs' m₃ ⟨hrsp₃, hrbp₃, hmem₃, vs, hvs, hlength, hwords⟩
    rw [hrsp₂] at hrsp₃ hmem₃ hwords
    refine ⟨hrsp₃, hrbp₃.trans hrbp₂, ?_, m₁.rax :: vs,
      .inr ⟨m₁.rax, cs, hvalue, some vs, cs', hvs, rfl, rfl⟩, congrArg (· + 1) hlength, ?_⟩
    · intro a ha hoff
      rw [hmem₃ a ha (by omega), hmem₂ a ha (by omega)]
    · intro j hj
      cases j with
      | zero => rw [hmem₃ _ (by omega) (by omega)]; exact hword
      | succ j =>
        have haddress : index + (j + 1) = index + 1 + j := by omega
        rw [haddress]
        exact hwords j (Nat.lt_of_succ_lt_succ hj)

theorem call_safe {name : String} (hargs : ArgsSafe A env depth args)
    (hcount : args.length ≤ directPEWindowsMaxArgs)
    (height : args.length = directPEWindowsMaxArgs → depth % 16 = 0) (hdepth : depth % 8 = 0) :
    ExprSafe A env depth (.call name args) := by
  intro m hrsp hslots
  obtain ⟨hwords, hspill, haligned⟩ := spillBytes_spec hcount
  rw [emitExpr]
  -- with no arguments there are no words for them
  have hentry : ∀ c Q, wp (step A) c { m with rsp := m.rsp - spillBytes args.length } Q →
      wp (step A) ((if 0 < spillBytes args.length then code [.subRsp (spillBytes args.length)]
        else []) ++ c) m Q := by
    intro c Q hrest
    split
    · rw [code_cons, code_nil, cons_append, nil_append, wp_goes rfl]
      simp only [signedByte_eq hspill]
      exact hrest
    · have hnone : spillBytes args.length = 0 := by omega
      rw [hnone] at hrest
      simpa using hrest
  refine hentry _ _ ?_
  generalize hlow : { m with rsp := m.rsp - spillBytes args.length } = m₁
  have hrsp₁ : m₁.rsp = m.rsp - spillBytes args.length := by rw [← hlow]
  have hrbp₁ : m₁.rbp = m.rbp := by rw [← hlow]
  have hmem₁ : m₁.mem = m.mem := by rw [← hlow]
  have hslots₁ : Slots env (slotsOfArgs args) m.rsp m₁ :=
    hslots.mono (fun _ h => h) (Int.le_refl _) hrbp₁ fun a _ => congrFun hmem₁ a
  have hargs := hargs m₁ 0 m.rsp (by omega) hslots₁ (by omega) (by omega)
  rw [hrbp₁] at hargs
  refine safe_append hargs (fun cs hcs => .inl ⟨hcs, rfl⟩) ?_
  intro cs m₂ ⟨hrsp₂, hrbp₂, hmem₂, vs, hvs, hlength, hword⟩
  refine emitCall_safe hlength hcount height hdepth (by omega) ?_ ?_ ?_
  · intro i hi
    rw [hrsp₂, ← hword i hi, Nat.zero_add]
  · exact .inr ⟨vs, cs, hvs, rfl⟩
  · intro m₃ hrsp₃ hrbp₃ hmem₃
    refine ⟨⟨by omega, hrbp₃.trans (hrbp₂.trans hrbp₁), ?_⟩, .inr ⟨vs, cs, hvs, rfl⟩⟩
    intro a ha
    rw [hmem₃ a (by omega), hmem₂ a (by omega) (.inr ha), hmem₁]

mutual

theorem emitExpr_safe : (e : PEExpr) → {depth : Nat} → e.Accepted → e.framed depth →
    depth % 8 = 0 → ExprSafe A env depth e
  | .const value, _, _, _, _ => by
    intro m hrsp hslots
    rw [emitExpr, code_cons, wp_goes rfl]
    exact safe_nil ⟨⟨rfl, rfl, fun _ _ => rfl⟩, rfl, rfl⟩
  | .string text, _, _, _, _ => by
    intro m hrsp hslots
    rw [emitExpr, code_cons, wp_goes rfl]
    exact safe_nil ⟨⟨rfl, rfl, fun _ _ => rfl⟩, rfl, rfl⟩
  | .var offset, _, _, _, _ => by
    intro m hrsp hslots
    rw [emitExpr, code_cons, wp_goes rfl]
    have hvalue := (hslots offset (mem_singleton.mpr rfl)).2
    exact safe_nil ⟨⟨rfl, rfl, fun _ _ => rfl⟩, rfl, congrArg some hvalue⟩
  | .unary _ _ operand, _, haccepted, hframed, hdepth => by
    exact unary_safe (emitExpr_safe operand haccepted hframed.1 hdepth) hframed.2
  | .binary operator _ _ left right, depth, haccepted, hframed, hdepth => by
    have hleft := emitExpr_safe left haccepted.1 hframed.1 hdepth
    rw [PEExpr.framed] at hframed
    by_cases hoperator : operator = .and ∨ operator = .or
    · rw [if_pos hoperator] at hframed
      exact logical_safe hoperator hleft (emitExpr_safe right haccepted.2 hframed.2 hdepth)
    · rw [if_neg hoperator] at hframed
      have hright := emitExpr_safe right haccepted.2 hframed.2.1 (by omega : (depth + 8) % 8 = 0)
      exact binary_safe hoperator hleft hright hframed.2.2
  | .call _ args, _, haccepted, hframed, hdepth => by
    exact call_safe (emitArgs_safe args haccepted.2 hframed.1 hdepth) haccepted.1 hframed.2 hdepth
  | .str _ arg, _, haccepted, hframed, hdepth => by
    exact str_safe (emitExpr_safe arg haccepted hframed hdepth)
  | .convert _ _ arg, _, haccepted, hframed, hdepth => by
    exact convert_safe (emitExpr_safe arg haccepted hframed.1 hdepth) hframed.2

theorem emitArgs_safe : (args : List PEExpr) → {depth : Nat} → AcceptedArgs args →
    framedArgs depth args → depth % 8 = 0 → ArgsSafe A env depth args
  | [], _, _, _, _ => args_safe_nil
  | arg :: args, _, haccepted, hframed, hdepth => by
    exact args_safe_cons (emitExpr_safe arg haccepted.1 hframed.1 hdepth)
      (emitArgs_safe args haccepted.2 hframed.2 hdepth)

end

end Expressions

end Kryndel.PE.Calls
