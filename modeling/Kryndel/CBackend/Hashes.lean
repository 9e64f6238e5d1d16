import Mathlib.Tactic.Ring
import Kryndel.Wire.LittleEndian
import Kryndel.Wire.Patches

/-!
# Streaming hashes of the C runtime

A hash takes its message in pieces of any length. The pieces are collected in a buffer of one
block, which is compressed each time it is full, and in the end the message is padded. What is
compressed are the blocks of the padded message, however it has been cut.
-/

namespace Kryndel.Hashes

open Patches List

/-- The hashes of the C runtime. SHA-384 is SHA-512 that begins with other words. -/
inductive Algorithm where
  | sha1
  | sha256
  | sha512
  | md5
deriving DecidableEq, Repr

namespace Algorithm

/-- The size of the buffer, which holds one block. -/
def blockSize : Algorithm → Nat
  | sha1 | sha256 | md5 => 64
  | sha512 => 128

/-- The place of the length in the last block. -/
def lengthAt : Algorithm → Nat
  | sha1 | sha256 | md5 => 56
  | sha512 => 112

/-- The bytes `lb` of `k_sha1_final` and the other ones. -/
def lengthBytes (bits : UInt64) : Algorithm → List UInt8
  | sha1 | sha256 => (List.range 8).map fun i => (bits >>> UInt64.ofNat (56 - i * 8)).toUInt8
  | sha512 => List.replicate 8 0 ++
    (List.range 8).map fun i => (bits >>> UInt64.ofNat (56 - i * 8)).toUInt8
  | md5 => (List.range 8).map fun i => (bits >>> UInt64.ofNat (i * 8)).toUInt8

end Algorithm

/-- `KSha1`, `KSha256`, `KSha512` and `KMd5`. -/
structure HashState (H : Type) where
  h : H
  len : UInt64
  buf : List UInt8
  n : Nat

/-! ## The operations -/

section Operations

-- The functions `k_sha1_block` and so on are a parameter, as is how the words are written out.
variable {H : Type} (a : Algorithm) (compress : H → List UInt8 → H) (out : H → List UInt8)

/-- `k_sha1_init` and the other ones, with the words that they begin with. What the buffer holds
    before is not defined. -/
def init (h : H) (before : Nat → UInt8) : HashState H where
  h := h
  len := 0
  buf := (List.range a.blockSize).map before
  n := 0

/-- `memcpy(s->buf + s->n, p, take)`, which must not write past the buffer. -/
def copyIn (s : HashState H) (bytes : List UInt8) : Option (HashState H) :=
  if s.n + bytes.length ≤ s.buf.length then
    some { s with buf := put s.buf ⟨s.n, bytes⟩, n := s.n + bytes.length }
  else none

/-- The end of the loop of `k_sha1_update` and the other ones. -/
def flush (s : HashState H) : HashState H :=
  if s.n = a.blockSize then { s with h := compress s.h s.buf, n := 0 } else s

/-- The loop of `k_sha1_update` and the other ones, with a bound on its rounds. -/
def updateLoop : Nat → HashState H → List UInt8 → Option (HashState H)
  | _, s, [] => some s
  | 0, _, _ :: _ => none
  | rounds + 1, s, byte :: rest => do
    let p := byte :: rest
    let take := min (a.blockSize - s.n) p.length
    let s ← copyIn s (p.take take)
    updateLoop rounds (flush a compress s) (p.drop take)

/-- `k_sha1_update`, `k_sha_update`, `k_sha512_update` and `k_md5_update`. -/
def update (s : HashState H) (p : List UInt8) : Option (HashState H) :=
  updateLoop a compress p.length { s with len := s.len + UInt64.ofNat p.length } p

/-- The loop over zeros of `k_sha1_final` and the other ones, with a bound on its rounds. -/
def zeros : Nat → HashState H → Option (HashState H)
  | 0, s => if s.n = a.lengthAt then some s else none
  | rounds + 1, s =>
    if s.n = a.lengthAt then some s
    else (update a compress s [0]).bind (zeros rounds)

/-- `k_sha1_final`, `k_sha_final`, `k_sha512_final` and `k_md5_final`. -/
def final (s : HashState H) : Option (List UInt8) := do
  let bits := s.len * 8
  let s ← update a compress s [0x80]
  let s ← zeros a compress a.blockSize s
  let s ← update a compress s (a.lengthBytes bits)
  some (out s.h)

/-- The hash of a message in pieces. -/
def hash (h : H) (before : Nat → UInt8) (pieces : List (List UInt8)) : Option (List UInt8) := do
  let s ← pieces.foldlM (update a compress) (init a h before)
  final a compress out s

end Operations

/-! ## The standards -/

namespace Algorithm

/-- The number of bits of a message, in the width and the order of bytes of the standard. -/
def lengthField (n : Nat) : Algorithm → List UInt8
  | sha1 | sha256 => (Wire.littleEndian 8 (8 * n)).reverse
  | sha512 => (Wire.littleEndian 16 (8 * n)).reverse
  | md5 => Wire.littleEndian 8 (8 * n)

/-- The least number of zeros after `n` bytes with which the length ends a block. -/
def zeroCount (a : Algorithm) (n : Nat) : Nat :=
  (a.lengthAt + a.blockSize - n % a.blockSize) % a.blockSize

/-- What a standard puts behind a message of `n` bytes. -/
def padding (a : Algorithm) (n : Nat) : List UInt8 :=
  0x80 :: List.replicate (a.zeroCount (n + 1)) 0 ++ a.lengthField n

end Algorithm

theorem byte_shift {bits : UInt64} {n k : Nat} (h : bits.toNat = n) (hk : k < 8) :
    (bits >>> UInt64.ofNat (k * 8)).toUInt8 = UInt8.ofNat (n / 256 ^ k) := by
  apply UInt8.toNat_inj.mp
  have hshift : (UInt64.ofNat (k * 8)).toNat % 64 = k * 8 := by
    rw [UInt64.toNat_ofNat']
    omega
  rw [UInt64.toNat_toUInt8, UInt64.toNat_shiftRight, hshift, h, Nat.shiftRight_eq_div_pow,
    UInt8.toNat_ofNat', Nat.mul_comm k, Nat.pow_mul]

theorem littleEndian_eight {bits : UInt64} {n : Nat} (h : bits.toNat = n) :
    Wire.littleEndian 8 n =
      (List.range 8).map fun i => (bits >>> UInt64.ofNat (i * 8)).toUInt8 := by
  have hbytes : (List.range 8).map (fun i => (bits >>> UInt64.ofNat (i * 8)).toUInt8) =
      (List.range 8).map fun i => UInt8.ofNat (n / 256 ^ i) :=
    map_congr_left fun i hi => byte_shift h (mem_range.mp hi)
  rw [hbytes]
  simp [Wire.littleEndian, range_succ, Nat.div_div_eq_div_mul]

theorem littleEndian_add (m k x : Nat) :
    Wire.littleEndian (m + k) x = Wire.littleEndian m x ++ Wire.littleEndian k (x / 256 ^ m) := by
  induction m generalizing x with
  | zero => simp [Wire.littleEndian]
  | succ m ih =>
    rw [Nat.add_right_comm, Wire.littleEndian, Wire.littleEndian, ih, Nat.div_div_eq_div_mul,
      Nat.pow_succ', cons_append]

theorem lengthBytes_eq (a : Algorithm) {n : Nat} (h : n < 2 ^ 61) :
    a.lengthBytes (UInt64.ofNat n * 8) = a.lengthField n := by
  have hbits : (UInt64.ofNat n * 8).toNat = 8 * n := by
    rw [UInt64.toNat_mul, UInt64.toNat_ofNat', show (8 : UInt64).toNat = 8 from rfl]
    omega
  have hreverse : (Wire.littleEndian 8 (8 * n)).reverse = (List.range 8).map fun i =>
      ((UInt64.ofNat n * 8) >>> UInt64.ofNat (56 - i * 8)).toUInt8 := by
    rw [littleEndian_eight hbits]
    rfl
  cases a with
  | sha1 | sha256 => exact hreverse.symm
  | md5 => exact (littleEndian_eight hbits).symm
  | sha512 =>
    have hhigh : Wire.littleEndian 16 (8 * n) =
        Wire.littleEndian 8 (8 * n) ++ List.replicate 8 0 := by
      rw [littleEndian_add 8 8, Nat.div_eq_of_lt (by omega)]
      rfl
    rw [Algorithm.lengthField, hhigh, reverse_append, hreverse]
    rfl

/-! ## What has been taken up -/

section Absorbing

variable {H : Type} {a : Algorithm} {compress : H → List UInt8 → H} {h : H}
  {blocks : List (List UInt8)} {rest message bytes p : List UInt8} {s : HashState H}

theorem Algorithm.blockSize_pos (a : Algorithm) : 0 < a.blockSize := by
  cases a <;> decide

/-- Some blocks are compressed, and the rest is in the buffer. -/
structure Holds (a : Algorithm) (compress : H → List UInt8 → H) (h : H)
    (blocks : List (List UInt8)) (rest : List UInt8) (s : HashState H) : Prop where
  full : ∀ block ∈ blocks, block.length = a.blockSize
  words : s.h = blocks.foldl compress h
  n : s.n = rest.length
  room : rest.length < a.blockSize
  size : s.buf.length = a.blockSize
  buf : s.buf.take rest.length = rest

/-- A message is cut into blocks that are compressed and a rest in the buffer. -/
def Absorbed (a : Algorithm) (compress : H → List UInt8 → H) (h : H) (message : List UInt8)
    (s : HashState H) : Prop :=
  ∃ blocks rest, message = blocks.flatten ++ rest ∧ Holds a compress h blocks rest s

theorem flatten_full (hfull : ∀ block ∈ blocks, block.length = a.blockSize) :
    blocks.flatten.length % a.blockSize = 0 := by
  induction blocks with
  | nil => exact Nat.zero_mod _
  | cons block blocks ih =>
    obtain ⟨hblock, hblocks⟩ := forall_mem_cons.mp hfull
    rw [flatten_cons, length_append, hblock, Nat.add_mod_left]
    exact ih hblocks

theorem Absorbed.n_eq (hs : Absorbed a compress h message s) :
    s.n = message.length % a.blockSize := by
  obtain ⟨blocks, rest, rfl, hs⟩ := hs
  rw [length_append, Nat.add_mod, flatten_full hs.full, Nat.zero_add, Nat.mod_mod, hs.n,
    Nat.mod_eq_of_lt hs.room]

/-- Bytes that fit into the buffer are put behind the rest, and a full buffer is compressed. -/
theorem Holds.copyIn (hs : Holds a compress h blocks rest s)
    (hfits : rest.length + bytes.length ≤ a.blockSize) : ∃ s', copyIn s bytes = some s' ∧
      Absorbed a compress h (blocks.flatten ++ rest ++ bytes) (flush a compress s') ∧
      (flush a compress s').len = s.len := by
  have hbuf : put s.buf ⟨s.n, bytes⟩ =
      rest ++ bytes ++ s.buf.drop (rest.length + bytes.length) := by
    rw [put, Patch.stop, hs.n, hs.buf]
  have hstop : (⟨s.n, bytes⟩ : Patch UInt8).stop ≤ s.buf.length := by
    rw [Patch.stop, hs.n, hs.size]
    exact hfits
  refine ⟨_, if_pos hstop, ?_⟩
  by_cases hfull : s.n + bytes.length = a.blockSize
  · -- the buffer is one block
    have hall : put s.buf ⟨s.n, bytes⟩ = rest ++ bytes := by
      rw [hbuf, drop_eq_nil_of_le (by rw [hs.size, ← hs.n, hfull]), append_nil]
    rw [flush, if_pos hfull]
    refine ⟨⟨blocks ++ [rest ++ bytes], [], by simp, ?_, ?_, rfl, a.blockSize_pos, ?_, rfl⟩, rfl⟩
    · intro block hblock
      rcases mem_append.mp hblock with hold | hnew
      · exact hs.full block hold
      · rw [mem_singleton.mp hnew, length_append, ← hs.n, hfull]
    · rw [foldl_append, ← hs.words]
      exact congrArg (compress s.h) hall
    · exact (length_put hstop).trans hs.size
  · rw [flush, if_neg hfull]
    have hlength : s.n + bytes.length = (rest ++ bytes).length := by
      rw [length_append, hs.n]
    refine ⟨⟨blocks, rest ++ bytes, append_assoc _ _ _, hs.full, hs.words, hlength, ?_, ?_,
      ?_⟩, rfl⟩
    · rw [hs.n] at hfull
      rw [length_append]
      omega
    · exact (length_put hstop).trans hs.size
    · rw [hbuf, take_left]

theorem Absorbed.updateLoop {rounds : Nat} (hs : Absorbed a compress h message s)
    (hrounds : p.length ≤ rounds) : ∃ s', updateLoop a compress rounds s p = some s' ∧
      Absorbed a compress h (message ++ p) s' ∧ s'.len = s.len := by
  induction rounds generalizing message s p with
  | zero =>
    obtain rfl := length_eq_zero_iff.mp (Nat.le_zero.mp hrounds)
    exact ⟨s, by rw [Hashes.updateLoop], by rwa [append_nil], rfl⟩
  | succ rounds ih =>
    cases p with
    | nil => exact ⟨s, by rw [Hashes.updateLoop], by rwa [append_nil], rfl⟩
    | cons byte more =>
      obtain ⟨blocks, rest, rfl, hs⟩ := hs
      have hroom := hs.room
      have hn := hs.n
      rw [Hashes.updateLoop]
      generalize hp : byte :: more = p at hrounds ⊢
      have hpos : 0 < p.length := by simp [← hp]
      generalize htake : min (a.blockSize - s.n) p.length = take
      obtain ⟨s₁, hcopy, habsorbed, hlen⟩ := @Holds.copyIn H a compress h blocks rest
        (p.take take) s hs (by rw [length_take]; omega)
      obtain ⟨s', hloop, hall, hlen'⟩ := @ih _ (p.drop take) _ habsorbed
        (by rw [length_drop]; omega)
      refine ⟨s', ?_, ?_, hlen'.trans hlen⟩
      · simp only [hcopy, Option.bind_eq_bind, Option.bind_some]
        exact hloop
      · rwa [append_assoc _ _ (p.drop take), take_append_drop] at hall

theorem Absorbed.update (hs : Absorbed a compress h message s) (p : List UInt8) :
    ∃ s', update a compress s p = some s' ∧ Absorbed a compress h (message ++ p) s' ∧
      s'.len = s.len + UInt64.ofNat p.length := by
  have hs' : Absorbed a compress h message
      { s with len := s.len + UInt64.ofNat p.length } := by
    obtain ⟨blocks, rest, hmessage, hs⟩ := hs
    exact ⟨blocks, rest, hmessage, hs.full, hs.words, hs.n, hs.room, hs.size, hs.buf⟩
  exact hs'.updateLoop (Nat.le_refl _)

theorem zeroCount_eq_zero {n : Nat} : a.zeroCount n = 0 ↔ n % a.blockSize = a.lengthAt := by
  cases a <;> simp only [Algorithm.zeroCount, Algorithm.lengthAt, Algorithm.blockSize] <;> omega

theorem zeroCount_succ {n count : Nat} (hcount : a.zeroCount n = count + 1) :
    a.zeroCount (n + 1) = count := by
  revert hcount
  cases a <;> simp only [Algorithm.zeroCount, Algorithm.lengthAt, Algorithm.blockSize] <;> omega

theorem Absorbed.zeros {rounds count : Nat} (hs : Absorbed a compress h message s)
    (hcount : a.zeroCount message.length = count) (hrounds : count ≤ rounds) :
    ∃ s', zeros a compress rounds s = some s' ∧
      Absorbed a compress h (message ++ List.replicate count 0) s' := by
  induction count generalizing message s rounds with
  | zero =>
    refine ⟨s, ?_, by rwa [replicate_zero, append_nil]⟩
    cases rounds <;> exact if_pos (hs.n_eq.trans (zeroCount_eq_zero.mp hcount))
  | succ count ih =>
    obtain ⟨rounds, rfl⟩ := Nat.exists_eq_add_one.mpr (Nat.lt_of_lt_of_le count.succ_pos hrounds)
    have hmore : s.n ≠ a.lengthAt := by
      rw [hs.n_eq, ne_eq, ← zeroCount_eq_zero, hcount]
      exact Nat.succ_ne_zero _
    obtain ⟨s₁, hupdate, habsorbed, -⟩ := hs.update [0]
    obtain ⟨s', hzeros, hall⟩ := ih habsorbed
      (by rw [length_append, length_singleton, zeroCount_succ hcount])
      (Nat.le_of_succ_le_succ hrounds)
    refine ⟨s', ?_, by rwa [append_assoc] at hall⟩
    rw [Hashes.zeros, if_neg hmore, hupdate]
    exact hzeros

theorem absorbed_init (a : Algorithm) (compress : H → List UInt8 → H) (h : H)
    (before : Nat → UInt8) : Absorbed a compress h [] (init a h before) :=
  ⟨[], [], rfl, by simp, rfl, rfl, a.blockSize_pos, by simp [init], rfl⟩

theorem Absorbed.updates {pieces : List (List UInt8)} (hs : Absorbed a compress h message s)
    (hlen : s.len = UInt64.ofNat message.length) :
    ∃ s', pieces.foldlM (Hashes.update a compress) s = some s' ∧
      Absorbed a compress h (message ++ pieces.flatten) s' ∧
      s'.len = UInt64.ofNat (message ++ pieces.flatten).length := by
  induction pieces generalizing message s with
  | nil => exact ⟨s, rfl, by simpa using hs, by simpa using hlen⟩
  | cons piece pieces ih =>
    obtain ⟨s₁, hupdate, habsorbed, hlen₁⟩ := hs.update piece
    rw [hlen, ← UInt64.ofNat_add, ← length_append] at hlen₁
    obtain ⟨s', hupdates, hall, hlen'⟩ := ih habsorbed hlen₁
    rw [append_assoc] at hall hlen'
    refine ⟨s', ?_, hall, hlen'⟩
    rw [foldlM_cons, hupdate]
    exact hupdates

end Absorbing

theorem length_lengthField (a : Algorithm) (n : Nat) :
    (a.lengthField n).length = a.blockSize - a.lengthAt := by
  cases a <;> simp [Algorithm.lengthField, Algorithm.blockSize, Algorithm.lengthAt]

theorem length_padding (a : Algorithm) (n : Nat) :
    (n + (a.padding n).length) % a.blockSize = 0 := by
  rw [Algorithm.padding, length_append, length_cons, length_replicate,
    length_lengthField, Algorithm.zeroCount]
  cases a <;> simp only [Algorithm.lengthAt, Algorithm.blockSize] <;> omega

/-- For every way to cut a message into pieces, the blocks of the message with its padding are
    compressed, each once and in their order, and nothing is written past the buffer. -/
theorem hash_blocks {H : Type} (a : Algorithm) (compress : H → List UInt8 → H)
    (out : H → List UInt8) (h : H) (before : Nat → UInt8) (pieces : List (List UInt8))
    (hshort : pieces.flatten.length < 2 ^ 61) :
    ∃ blocks : List (List UInt8),
      blocks.flatten = pieces.flatten ++ a.padding pieces.flatten.length ∧
      (∀ block ∈ blocks, block.length = a.blockSize) ∧
      hash a compress out h before pieces = some (out (blocks.foldl compress h)) := by
  obtain ⟨s₁, hpieces, habsorbed₁, hlen₁⟩ :=
    @Absorbed.updates H a compress h [] _ pieces (absorbed_init a compress h before) rfl
  rw [nil_append] at habsorbed₁ hlen₁
  generalize hmessage : pieces.flatten = message at *
  obtain ⟨s₂, hmark, habsorbed₂, -⟩ := habsorbed₁.update [0x80]
  obtain ⟨s₃, hzeros, habsorbed₃⟩ := habsorbed₂.zeros rfl
    (Nat.le_of_lt (Nat.mod_lt _ a.blockSize_pos))
  obtain ⟨s₄, hlength, habsorbed₄, -⟩ := habsorbed₃.update (a.lengthField message.length)
  have hn := habsorbed₄.n_eq
  obtain ⟨blocks, rest, hblocks, hs⟩ := habsorbed₄
  have hpadded : message ++ a.padding message.length = blocks.flatten ++ rest := by
    rw [← hblocks]
    simp [Algorithm.padding]
  -- the padded message ends with a block
  have hrest : rest = [] := by
    rw [hblocks, ← hpadded, length_append, length_padding, hs.n] at hn
    exact length_eq_zero_iff.mp hn
  subst hrest
  rw [append_nil] at hpadded
  refine ⟨blocks, hpadded.symm, hs.full, ?_⟩
  simp only [hash, final, hpieces, hlen₁, Option.bind_eq_bind, Option.bind_some, hmark, hzeros,
    lengthBytes_eq a hshort, hlength, hs.words]

theorem hash_blocks_abc : ∃ blocks : List (List UInt8),
    blocks.flatten = [[0x61], [0x62, 0x63]].flatten ++ Algorithm.padding .sha256 3 ∧
      (∀ block ∈ blocks, block.length = Algorithm.blockSize .sha256) ∧
      hash .sha256 (fun h block => h ++ [block]) List.flatten [] (fun _ => 0)
        [[0x61], [0x62, 0x63]] = some (blocks.foldl (fun h block => h ++ [block]) []).flatten :=
  hash_blocks .sha256 _ List.flatten [] _ _ (by decide)

end Kryndel.Hashes
