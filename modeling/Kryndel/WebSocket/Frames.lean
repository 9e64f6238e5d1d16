import Kryndel.Wire.LittleEndian
import Kryndel.Wire.Reading
import Mathlib.Tactic.IntervalCases

/-!
# WebSocket frames

A frame has a flag that says whether it ends its message, an opcode, and a payload, whose length
is written in one, three or nine bytes. The reader of the source reads a frame byte by byte and
refuses what is too long, masked, or no frame at all.

## References

- `websocket.go`: `sendFrame`, `receiveFrame`
-/

namespace Kryndel.WebSocket

open Reading

/-- A frame, as `receiveFrame` returns it. -/
structure Frame where
  fin : Bool
  opcode : UInt8
  payload : List UInt8
deriving DecidableEq, Repr

/-! ## Writing -/

/-- The first byte of a frame. -/
def firstByte (fin : Bool) (opcode : UInt8) : UInt8 :=
  (if fin then 0x80 else 0) ||| (opcode &&& 0x0f)

/-- The bytes of a number, the highest first. -/
def bigEndian (width n : Nat) : List UInt8 := (Wire.littleEndian width n).reverse

/-- The length of a payload, as `sendFrame` writes it; a server does not set the bit for masks. -/
def encodeLength (n : Nat) : List UInt8 :=
  if n < 126 then [UInt8.ofNat n]
  else if n ≤ 65535 then 0x7E :: bigEndian 2 n
  else 0x7F :: bigEndian 8 n

/-- What stands before the payload of a frame. -/
def encodeHeader (f : Frame) : List UInt8 :=
  firstByte f.fin f.opcode :: encodeLength f.payload.length

/-- The bytes of a frame. -/
def encodeFrame (f : Frame) : List UInt8 := encodeHeader f ++ f.payload

/-! ## Reading -/

/-- A number of 64 bits with a sign. -/
def asInt64 (n : Nat) : Int := if n < 2 ^ 63 then n else n - 2 ^ 64

/-- The number that some bytes stand for, the highest first. -/
def ofBigEndian (bytes : List UInt8) : Nat := bytes.foldl (fun n b => n * 256 + b.toNat) 0

/-- The length of a payload, after the second byte of its frame. -/
def receiveLength (second : UInt8) : Reader UInt8 Int :=
  let n := second &&& 0x7f
  if n = 126 then do
    let b ← Reader.readN 2
    return ofBigEndian b
  else if n = 127 then do
    let b ← Reader.readN 8
    return asInt64 (ofBigEndian b)
  else return n.toNat

/-- What `receiveFrame` refuses before it reads a payload. -/
def refused (max : Nat) (first second : UInt8) (n : Int) : Option String :=
  if n < 0 ∨ n > max then some "WebSocket frame exceeds configured limit"
  else if second &&& 0x80 ≠ 0 then some "server WebSocket frames must not be masked"
  else if first &&& 0x0f ≥ 0x8 ∧ (first &&& 0x80 = 0 ∨ n > 125) then
    some "invalid WebSocket control frame"
  else none

/-- `receiveFrame` -/
def receiveFrame (max : Nat) : Reader UInt8 (Except String Frame) := do
  let first ← Reader.read
  let second ← Reader.read
  if first &&& 0x70 ≠ 0 then return .error "WebSocket extension bits are not negotiated"
  else
    let n ← receiveLength second
    match refused max first second n with
    | some error => return .error error
    | none =>
      let payload ← Reader.readN n.toNat
      return .ok ⟨first &&& 0x80 ≠ 0, first &&& 0x0f, payload⟩

/-! ## What is written is read -/

theorem ofBigEndian_bigEndian (width n : Nat) :
    ofBigEndian (bigEndian width n) = n % 256 ^ width := by
  rw [← Wire.ofLittleEndian_littleEndian, ofBigEndian, bigEndian, List.foldl_reverse]
  induction Wire.littleEndian width n with
  | nil => rfl
  | cons b bytes ih =>
    rw [List.foldr_cons, ih, Wire.ofLittleEndian]
    omega

theorem length_bigEndian (width n : Nat) : (bigEndian width n).length = width := by
  rw [bigEndian, List.length_reverse, Wire.length_littleEndian]

/-- The second byte of a frame. -/
def secondByte (n : Nat) : UInt8 :=
  if n < 126 then UInt8.ofNat n else if n ≤ 65535 then 0x7E else 0x7F

/-- The rest of a length. -/
def lengthTail (n : Nat) : List UInt8 :=
  if n < 126 then [] else if n ≤ 65535 then bigEndian 2 n else bigEndian 8 n

theorem encodeLength_eq (n : Nat) : encodeLength n = secondByte n :: lengthTail n := by
  unfold encodeLength secondByte lengthTail
  split
  · rfl
  split <;> rfl

theorem secondByte_small {n : Nat} (h : n < 126) :
    secondByte n &&& 0x7f = UInt8.ofNat n ∧ UInt8.ofNat n ≠ 126 ∧ UInt8.ofNat n ≠ 127 ∧
      (UInt8.ofNat n).toNat = n := by
  rw [secondByte, if_pos h]
  interval_cases n <;> decide

theorem secondByte_unmasked (n : Nat) : secondByte n &&& 0x80 = 0 := by
  unfold secondByte
  split
  · next h =>
    interval_cases n <;> decide
  split <;> decide

theorem takes_length {n : Nat} (h : n < 2 ^ 63) :
    Takes (receiveLength (secondByte n)) (lengthTail n) n := by
  have hread : ∀ width, Takes (Reader.readN width) (bigEndian width n) (bigEndian width n) := by
    intro width
    have htakes := Takes.readN (bigEndian width n)
    rwa [length_bigEndian] at htakes
  unfold receiveLength lengthTail
  by_cases hsmall : n < 126
  · obtain ⟨hbyte, hne, hne', hn⟩ := secondByte_small hsmall
    simp only [hbyte, if_neg hne, if_neg hne', if_pos hsmall, hn]
    exact Takes.done _
  by_cases hmiddle : n ≤ 65535
  · have hbyte : secondByte n = 0x7E := by
      rw [secondByte, if_neg hsmall, if_pos hmiddle]
    have htakes := Takes.bind (hread 2)
      (f := fun b => pure (ofBigEndian b : Int)) (Takes.done _)
    rw [ofBigEndian_bigEndian, Nat.mod_eq_of_lt (by omega), List.append_nil] at htakes
    simp only [hbyte, if_neg hsmall, if_pos hmiddle]
    exact htakes
  · have hbyte : secondByte n = 0x7F := by
      rw [secondByte, if_neg hsmall, if_neg hmiddle]
    have htakes := Takes.bind (hread 8)
      (f := fun b => pure (asInt64 (ofBigEndian b))) (Takes.done _)
    rw [ofBigEndian_bigEndian, Nat.mod_eq_of_lt (by omega), List.append_nil, asInt64, if_pos h]
      at htakes
    simp only [hbyte, if_neg hsmall, if_neg hmiddle]
    exact htakes

theorem firstByte_parts (fin : Bool) {opcode : UInt8} (h : opcode < 16) :
    firstByte fin opcode &&& 0x70 = 0 ∧ firstByte fin opcode &&& 0x0f = opcode ∧
      (firstByte fin opcode &&& 0x80 ≠ 0 ↔ fin = true) := by
  obtain ⟨n, hn, rfl⟩ : ∃ n < 16, opcode = UInt8.ofNat n :=
    ⟨opcode.toNat, UInt8.lt_iff_toNat_lt.mp h, (UInt8.ofNat_toNat).symm⟩
  interval_cases n <;> cases fin <;> decide

/-- A frame that a server may send: its opcode has four bits, its length has 63, and a control
frame is short and not a part of a message. -/
structure Frame.Lawful (f : Frame) : Prop where
  opcode : f.opcode < 16
  length : f.payload.length < 2 ^ 63
  control : 8 ≤ f.opcode → f.fin = true ∧ f.payload.length ≤ 125

/-- The reader after the header of a frame. -/
def receivePayload (max : Nat) (f : Frame) : Reader UInt8 (Except String Frame) :=
  match refused max (firstByte f.fin f.opcode) (secondByte f.payload.length) f.payload.length with
  | some error => Reader.done (.error error)
  | none => do
    let payload ← Reader.readN f.payload.length
    return .ok ⟨f.fin, f.opcode, payload⟩

variable {max : Nat} {f : Frame}

theorem takes_encodeHeader (h : f.Lawful) {bytes : List UInt8} {answer : Except String Frame}
    (hrest : Takes (receivePayload max f) bytes answer) :
    Takes (receiveFrame max) (encodeHeader f ++ bytes) answer := by
  obtain ⟨hbits, hopcode, hfin⟩ := firstByte_parts f.fin h.opcode
  have hbytes : encodeHeader f ++ bytes = [firstByte f.fin f.opcode] ++
      ([secondByte f.payload.length] ++ (lengthTail f.payload.length ++ bytes)) := by
    rw [encodeHeader, encodeLength_eq]
    rfl
  rw [hbytes]
  apply Takes.bind (Takes.read _)
  apply Takes.bind (Takes.read _)
  rw [if_neg (not_not_intro hbits)]
  apply Takes.bind (takes_length h.length)
  rw [hopcode, Int.toNat_natCast, show decide (firstByte f.fin f.opcode &&& 0x80 ≠ 0) = f.fin by
    rw [Bool.eq_iff_iff, decide_eq_true_eq, hfin]]
  exact hrest

theorem takes_encodeFrame (h : f.Lawful) (hle : f.payload.length ≤ max) :
    Takes (receiveFrame max) (encodeFrame f) (.ok f) := by
  have hnone : refused max (firstByte f.fin f.opcode) (secondByte f.payload.length)
      f.payload.length = none := by
    obtain ⟨-, hopcode, hfin⟩ := firstByte_parts f.fin h.opcode
    have hkept : ¬((f.payload.length : Int) < 0 ∨ (f.payload.length : Int) > max) := by
      omega
    have hlawful : ¬(f.opcode ≥ 8 ∧
        (firstByte f.fin f.opcode &&& 0x80 = 0 ∨ (f.payload.length : Int) > 125)) := by
      rintro ⟨hge, hzero | hlong⟩
      · exact hfin.mpr (h.control hge).1 hzero
      · have hshort := (h.control hge).2
        omega
    rw [refused, if_neg hkept, if_neg (not_not_intro (secondByte_unmasked _)), hopcode,
      if_neg hlawful]
  let whole (payload : List UInt8) : Except String Frame := .ok ⟨f.fin, f.opcode, payload⟩
  have hpayload := Takes.bind (f := fun payload => Reader.done (whole payload))
    (Takes.readN f.payload) (Takes.done (whole f.payload))
  rw [List.append_nil] at hpayload
  apply takes_encodeHeader h
  unfold receivePayload
  rw [hnone]
  exact hpayload

theorem takes_long (h : f.Lawful) (hlt : max < f.payload.length) :
    Takes (receiveFrame max) (encodeHeader f)
      (.error "WebSocket frame exceeds configured limit") := by
  have hrefused : refused max (firstByte f.fin f.opcode) (secondByte f.payload.length)
      f.payload.length = some "WebSocket frame exceeds configured limit" :=
    if_pos (Or.inr (by omega))
  rw [← List.append_nil (encodeHeader f)]
  apply takes_encodeHeader h
  unfold receivePayload
  rw [hrefused]
  exact Takes.done _

end Kryndel.WebSocket
