import Mathlib.Algebra.Group.Nat.Defs
import Mathlib.Data.List.Nodup
import Kryndel.Files.Path

/-!
# Base64 in the C runtime

Three bytes are written as four characters, with padding or without. One reader takes four
characters at a time, the other one collects bits in a word whose upper bits it never clears. Both
look characters up as `strchr` does, which finds the end of the alphabet too.
-/

namespace Kryndel.Base64

open List

/-! ## The functions of the source -/

/-- An alphabet with its last two characters. -/
def alphabet (last : String) : Bytes :=
  ascii ("ABCDEFGHIJKLMNOPQRSTUVWXYZabcdefghijklmnopqrstuvwxyz0123456789" ++ last)

def kB64 : Bytes := alphabet "+/"

def kB64url : Bytes := alphabet "-_"

/-- `strchr`, of a string that ends with a zero. -/
def strchr (table : Bytes) (c : UInt8) : Option Nat :=
  (table ++ [0]).idxOf? c

/-- A character for six bits of a word. -/
def sextet (table : Bytes) (t : UInt32) (shift : Nat) : UInt8 :=
  table.getD ((t >>> UInt32.ofNat shift) &&& 0x3f).toNat 0

/-- The bytes of a group; missing ones are zero. -/
def group (b0 b1 b2 : UInt8) : UInt32 :=
  (b0.toUInt32 <<< 16) ||| (b1.toUInt32 <<< 8) ||| b2.toUInt32

/-- The loops of `k_base64_encode` and `k_base64url_encode`. -/
def encodeGroups (table pad : Bytes) : Bytes → Bytes
  | [] => []
  | [b0] =>
    let t := group b0 0 0
    sextet table t 18 :: sextet table t 12 :: (pad ++ pad)
  | [b0, b1] =>
    let t := group b0 b1 0
    sextet table t 18 :: sextet table t 12 :: sextet table t 6 :: pad
  | b0 :: b1 :: b2 :: rest =>
    let t := group b0 b1 b2
    sextet table t 18 :: sextet table t 12 :: sextet table t 6 :: sextet table t 0 ::
      encodeGroups table pad rest

/-- `k_base64_encode`. -/
def kBase64Encode (v : Bytes) : Bytes :=
  encodeGroups kB64 (ascii "=") v

/-- `k_base64url_encode`. -/
def kBase64urlEncode (v : Bytes) : Bytes :=
  encodeGroups kB64url [] v

/-- What `k_base64_decode` has for a character in its array `q`. -/
def quadValue (c : UInt8) : Option Int :=
  if c = 61 then some (-2) else (strchr kB64 c).map Int.ofNat

/-- The bytes of four values. -/
def quadBytes (q0 q1 q2 q3 : Int) : Bytes :=
  let t := (UInt32.ofInt q0 <<< 18) ||| (UInt32.ofInt q1 <<< 12) |||
    ((if q2 < 0 then 0 else UInt32.ofInt q2) <<< 6) ||| (if q3 < 0 then 0 else UInt32.ofInt q3)
  ((t >>> 16) &&& 0xff).toUInt8 ::
    ((if 0 ≤ q2 then [((t >>> 8) &&& 0xff).toUInt8] else []) ++
      if 0 ≤ q3 then [(t &&& 0xff).toUInt8] else [])

/-- The loop of `k_base64_decode`. -/
def decodeQuads : Bytes → Option Bytes
  | c0 :: c1 :: c2 :: c3 :: rest => do
    let q0 ← quadValue c0
    let q1 ← quadValue c1
    let q2 ← quadValue c2
    let q3 ← quadValue c3
    let bytes ← decodeQuads rest
    return quadBytes q0 q1 q2 q3 ++ bytes
  | _ => some []

/-- `k_base64_decode`. -/
def kBase64Decode (v : Bytes) : Except String Bytes :=
  if v.length % 4 ≠ 0 then .error "invalid base64"
  else match decodeQuads v with
    | some bytes => .ok bytes
    | none => .error "invalid base64"

/-- The loop of `k_base64url_decode`. -/
def decodeBits : Bytes → UInt32 → Nat → Option Bytes
  | [], _, _ => some []
  | c :: rest, buf, bits => do
    let f ← strchr kB64url c
    let buf := (buf <<< 6) ||| UInt32.ofNat f
    if 8 ≤ bits + 6 then
      let bytes ← decodeBits rest buf (bits + 6 - 8)
      return ((buf >>> UInt32.ofNat (bits + 6 - 8)) &&& 0xff).toUInt8 :: bytes
    else decodeBits rest buf (bits + 6)

/-- `k_base64url_decode`. -/
def kBase64urlDecode (v : Bytes) : Except String Bytes :=
  match decodeBits (v.reverse.dropWhile (· = 61)).reverse 0 0 with
  | some bytes => .ok bytes
  | none => .error "invalid base64url input"

/-! ## Characters -/

theorem alphabet_eq (last : String) : alphabet last =
    (range' 65 26 ++ range' 97 26 ++ range' 48 10).map UInt8.ofNat ++ ascii last := by
  -- the kernel takes the literal for a list of characters, and not for bytes that it decodes
  have hletters : "ABCDEFGHIJKLMNOPQRSTUVWXYZabcdefghijklmnopqrstuvwxyz0123456789".toList = _ :=
    String.toList_ofList
  rw [alphabet, ascii, String.toList_append, map_append, hletters]
  rfl

theorem alphabet_spec (last : String) (hlast : last = "+/" ∨ last = "-_") :
    (alphabet last).length = 64 ∧ (alphabet last ++ [0]).Nodup ∧ 61 ∉ alphabet last := by
  rw [alphabet_eq]
  rcases hlast with rfl | rfl
  · rw [show ascii "+/" = [43, 47] from rfl]
    decide +kernel
  · rw [show ascii "-_" = [45, 95] from rfl]
    decide +kernel

theorem strchr_getD (last : String) (hlast : last = "+/" ∨ last = "-_") {i : Nat} (hi : i < 64) :
    strchr (alphabet last) ((alphabet last).getD i 0) = some i ∧
      (alphabet last).getD i 0 ≠ 61 := by
  obtain ⟨hlength, hnodup, hpadding⟩ := alphabet_spec last hlast
  have hi' : i < (alphabet last).length := hlength ▸ hi
  have hget : (alphabet last).getD i 0 = (alphabet last)[i] := by
    rw [getD_eq_getElem?_getD, getElem?_eq_getElem hi', Option.getD_some]
  rw [hget]
  constructor
  · have hlong : i < (alphabet last ++ [0]).length := by
      rw [length_append]
      omega
    rw [strchr, idxOf?_eq_some_iff]
    have hsame : (alphabet last ++ [0])[i] = (alphabet last)[i] := getElem_append_left hi'
    refine ⟨hlong, hsame, fun j hj heq => ?_⟩
    exact absurd (Nodup.getElem_inj_iff hnodup |>.mp (heq.trans hsame.symm)) (Nat.ne_of_lt hj)
  · intro h
    exact hpadding (h ▸ getElem_mem hi')

/-! ## Words -/

theorem or_eq_add {x y k : Nat} (hx : 2 ^ k ∣ x) (hy : y < 2 ^ k) : x ||| y = x + y := by
  obtain ⟨a, rfl⟩ := hx
  exact (Nat.two_pow_add_eq_or_of_lt hy a).symm

theorem toNat_group (b0 b1 b2 : UInt8) :
    (group b0 b1 b2).toNat = b0.toNat * 65536 + b1.toNat * 256 + b2.toNat := by
  have h0 := b0.toNat_lt
  have h1 := b1.toNat_lt
  have h2 := b2.toNat_lt
  have hhigh : b0.toNat * 65536 ||| b1.toNat * 256 = b0.toNat * 65536 + b1.toNat * 256 :=
    @or_eq_add _ _ 16 (by omega) (by omega)
  have hlow : (b0.toNat * 65536 + b1.toNat * 256) ||| b2.toNat =
      b0.toNat * 65536 + b1.toNat * 256 + b2.toNat := @or_eq_add _ _ 8 (by omega) (by omega)
  simp only [group, UInt32.toNat_or, UInt32.toNat_shiftLeft, UInt8.toNat_toUInt32,
    Nat.shiftLeft_eq]
  rw [← hlow, ← hhigh]
  congr 2 <;> exact Nat.mod_eq_of_lt (by simp; omega)

/-- Six bits of a word. -/
theorem sextet_eq (table : Bytes) (t : UInt32) {k : Nat} (hk : k < 32) :
    sextet table t k = table.getD (t.toNat / 2 ^ k % 64) 0 := by
  have hsix : ∀ n : Nat, n &&& 63 = n % 64 := fun n => Nat.and_two_pow_sub_one_eq_mod n 6
  have hmod : k % 2 ^ 32 % 32 = k := by omega
  rw [sextet]
  simp only [UInt32.toNat_and, UInt32.toNat_shiftRight, UInt32.toNat_ofNat', UInt32.reduceToNat,
    hsix, hmod, Nat.shiftRight_eq_div_pow]

/-- Eight bits of a word. -/
theorem byte_eq {t : UInt32} {b : UInt8} {k : Nat} (hk : k < 32)
    (h : t.toNat / 2 ^ k % 256 = b.toNat) : ((t >>> UInt32.ofNat k) &&& 0xff).toUInt8 = b := by
  have height : ∀ n : Nat, n &&& 255 = n % 256 := fun n => Nat.and_two_pow_sub_one_eq_mod n 8
  have hmod : k % 2 ^ 32 % 32 = k := by omega
  apply UInt8.toNat_inj.mp
  simp only [UInt32.toNat_toUInt8, UInt32.toNat_and, UInt32.toNat_shiftRight, UInt32.toNat_ofNat',
    UInt32.reduceToNat, height, hmod, Nat.shiftRight_eq_div_pow]
  omega

/-- Six more bits in a word. -/
theorem toNat_push (buf : UInt32) {q : Nat} (hq : q < 64) :
    ((buf <<< 6) ||| UInt32.ofNat q).toNat = (buf.toNat * 64 + q) % 2 ^ 32 := by
  have hor : buf.toNat * 64 % 2 ^ 32 ||| q = buf.toNat * 64 % 2 ^ 32 + q :=
    @or_eq_add _ _ 6 (by omega) hq
  simp only [UInt32.toNat_or, UInt32.toNat_shiftLeft, UInt32.toNat_ofNat', UInt32.reduceToNat,
    Nat.shiftLeft_eq, Nat.mod_eq_of_lt (show q < 2 ^ 32 by omega)]
  rw [show (2 : Nat) ^ (6 % 32) = 64 by decide, hor]
  omega

/-- Twenty-four bits from four words. -/
theorem toNat_quad {w0 w1 w2 w3 : UInt32} (h0 : w0.toNat < 64) (h1 : w1.toNat < 64)
    (h2 : w2.toNat < 64) (h3 : w3.toNat < 64) :
    ((w0 <<< 18) ||| (w1 <<< 12) ||| (w2 <<< 6) ||| w3).toNat =
      w0.toNat * 2 ^ 18 + w1.toNat * 2 ^ 12 + w2.toNat * 2 ^ 6 + w3.toNat := by
  have hfirst : w0.toNat * 2 ^ 18 ||| w1.toNat * 2 ^ 12 = w0.toNat * 2 ^ 18 + w1.toNat * 2 ^ 12 :=
    @or_eq_add _ _ 18 (by omega) (by omega)
  have hsecond : (w0.toNat * 2 ^ 18 + w1.toNat * 2 ^ 12) ||| w2.toNat * 2 ^ 6 =
      w0.toNat * 2 ^ 18 + w1.toNat * 2 ^ 12 + w2.toNat * 2 ^ 6 :=
    @or_eq_add _ _ 12 (by omega) (by omega)
  have hthird : (w0.toNat * 2 ^ 18 + w1.toNat * 2 ^ 12 + w2.toNat * 2 ^ 6) ||| w3.toNat =
      w0.toNat * 2 ^ 18 + w1.toNat * 2 ^ 12 + w2.toNat * 2 ^ 6 + w3.toNat :=
    @or_eq_add _ _ 6 (by omega) (by omega)
  simp only [UInt32.toNat_or, UInt32.toNat_shiftLeft, Nat.shiftLeft_eq]
  rw [← hthird, ← hsecond, ← hfirst]
  congr 3 <;> exact Nat.mod_eq_of_lt (by simp; omega)

/-- What the array `q` has for a number, or for padding that counts as zero. -/
def Stands (q : Int) (n : Nat) : Prop :=
  q = n ∨ q = -2 ∧ n = 0

theorem quadBytes_eq {n0 n1 n2 n3 : Nat} {q2 q3 : Int} {b0 b1 b2 : UInt8} (h0 : n0 < 64)
    (h1 : n1 < 64) (h2 : n2 < 64) (h3 : n3 < 64) (hq2 : Stands q2 n2) (hq3 : Stands q3 n3)
    (hword : n0 * 2 ^ 18 + n1 * 2 ^ 12 + n2 * 2 ^ 6 + n3 = (group b0 b1 b2).toNat) :
    quadBytes n0 n1 q2 q3 =
      b0 :: ((if 0 ≤ q2 then [b1] else []) ++ if 0 ≤ q3 then [b2] else []) := by
  have hint : ∀ n : Nat, n < 64 → (UInt32.ofInt n).toNat = n := by
    intro n hn
    rw [UInt32.ofInt, UInt32.toNat_ofNat']
    omega
  have hpad : ∀ {q : Int} {n : Nat}, n < 64 → Stands q n →
      (if q < 0 then 0 else UInt32.ofInt q).toNat = n := by
    rintro q n hn (rfl | ⟨rfl, rfl⟩)
    · rw [if_neg (by omega), hint n hn]
    · rfl
  have ht := toNat_quad (by rw [hint n0 h0]; exact h0) (by rw [hint n1 h1]; exact h1)
    (by rw [hpad h2 hq2]; exact h2) (by rw [hpad h3 hq3]; exact h3)
  rw [hint n0 h0, hint n1 h1, hpad h2 hq2, hpad h3 hq3, hword, toNat_group] at ht
  have hlt := b0.toNat_lt
  have hlt1 := b1.toNat_lt
  have hlt2 := b2.toNat_lt
  have hlow := @byte_eq _ b2 0 (by decide) (by rw [ht]; omega)
  rw [show UInt32.ofNat 0 = 0 from rfl, UInt32.shiftRight_zero] at hlow
  rw [quadBytes, show (16 : UInt32) = UInt32.ofNat 16 from rfl,
    show (8 : UInt32) = UInt32.ofNat 8 from rfl,
    @byte_eq _ b0 16 (by decide) (by rw [ht]; omega),
    @byte_eq _ b1 8 (by decide) (by rw [ht]; omega), hlow]

/-! ## Round trips -/

theorem strchr_sextet (last : String) (hlast : last = "+/" ∨ last = "-_") (t : UInt32) {k : Nat}
    (hk : k < 32) : strchr (alphabet last) (sextet (alphabet last) t k) =
      some (t.toNat / 2 ^ k % 64) ∧ sextet (alphabet last) t k ≠ 61 := by
  rw [sextet_eq _ _ hk]
  exact strchr_getD last hlast (Nat.mod_lt _ (by decide))

theorem quadValue_sextet (t : UInt32) {k : Nat} (hk : k < 32) :
    quadValue (sextet kB64 t k) = some ((t.toNat / 2 ^ k % 64 : Nat) : Int) := by
  obtain ⟨hfound, hne⟩ := strchr_sextet "+/" (.inl rfl) t hk
  rw [quadValue, kB64, if_neg hne, hfound]
  rfl

/-- The numbers of a group and its bytes. -/
theorem word_eq (b0 b1 b2 : UInt8) :
    (group b0 b1 b2).toNat / 2 ^ 18 % 64 * 2 ^ 18 + (group b0 b1 b2).toNat / 2 ^ 12 % 64 * 2 ^ 12 +
        (group b0 b1 b2).toNat / 2 ^ 6 % 64 * 2 ^ 6 + (group b0 b1 b2).toNat / 2 ^ 0 % 64 =
      (group b0 b1 b2).toNat := by
  have h0 := b0.toNat_lt
  have h1 := b1.toNat_lt
  have h2 := b2.toNat_lt
  rw [toNat_group]
  omega

/-- The induction is on the groups of the bytes. -/
theorem decodeQuads_encodeGroups (v : Bytes) :
    decodeQuads (encodeGroups kB64 (ascii "=") v) = some v ∧
      (encodeGroups kB64 (ascii "=") v).length % 4 = 0 := by
  have hlt : ∀ n : Nat, n % 64 < 64 := fun n => Nat.mod_lt n (by decide)
  have hpad : quadValue 61 = some (-2) := rfl
  fun_induction encodeGroups kB64 (ascii "=") v with
  | case1 => exact ⟨rfl, rfl⟩
  | case2 b0 t =>
    have hword := word_eq b0 0 0
    have hzero : (group b0 0 0).toNat / 2 ^ 6 % 64 = 0 ∧ (group b0 0 0).toNat / 2 ^ 0 % 64 = 0 := by
      have h0 := b0.toNat_lt
      rw [toNat_group]
      simp
      omega
    refine ⟨?_, by simp [ascii]⟩
    show decodeQuads [sextet kB64 t 18, sextet kB64 t 12, 61, 61] = some [b0]
    simp only [decodeQuads, quadValue_sextet _ (show 18 < 32 by decide),
      quadValue_sextet _ (show 12 < 32 by decide), hpad, Option.bind_eq_bind, Option.bind_some]
    rw [quadBytes_eq (hlt _) (hlt _) (hlt _) (hlt _) (.inr ⟨rfl, hzero.1⟩) (.inr ⟨rfl, hzero.2⟩)
      hword]
    rfl
  | case3 b0 b1 t =>
    have hword := word_eq b0 b1 0
    have hzero : (group b0 b1 0).toNat / 2 ^ 0 % 64 = 0 := by
      have h0 := b0.toNat_lt
      have h1 := b1.toNat_lt
      rw [toNat_group]
      simp
      omega
    refine ⟨?_, by simp [ascii]⟩
    show decodeQuads [sextet kB64 t 18, sextet kB64 t 12, sextet kB64 t 6, 61] = some [b0, b1]
    simp only [decodeQuads, quadValue_sextet _ (show 18 < 32 by decide),
      quadValue_sextet _ (show 12 < 32 by decide), quadValue_sextet _ (show 6 < 32 by decide), hpad,
      Option.bind_eq_bind, Option.bind_some]
    rw [quadBytes_eq (hlt _) (hlt _) (hlt _) (hlt _) (.inl rfl) (.inr ⟨rfl, hzero⟩) hword,
      if_pos (Int.natCast_nonneg _)]
    rfl
  | case4 b0 b1 b2 rest t ih =>
    have hword := word_eq b0 b1 b2
    refine ⟨?_, by rw [length_cons, length_cons, length_cons, length_cons]; omega⟩
    simp only [decodeQuads, quadValue_sextet _ (show 18 < 32 by decide),
      quadValue_sextet _ (show 12 < 32 by decide), quadValue_sextet _ (show 6 < 32 by decide),
      quadValue_sextet _ (show 0 < 32 by decide), ih.1, Option.bind_eq_bind, Option.bind_some]
    rw [quadBytes_eq (hlt _) (hlt _) (hlt _) (hlt _) (.inl rfl) (.inl rfl) hword,
      if_pos (Int.natCast_nonneg _), if_pos (Int.natCast_nonneg _)]
    rfl

/-- The bytes that are read while the numbers of a group are put into a word. -/
theorem pushed_bytes (b0 b1 b2 : UInt8) (w : UInt32) {w2 w3 w4 : UInt32}
    (h2 : w2 = ((w <<< 6) ||| UInt32.ofNat ((group b0 b1 b2).toNat / 2 ^ 18 % 64)) <<< 6 |||
      UInt32.ofNat ((group b0 b1 b2).toNat / 2 ^ 12 % 64))
    (h3 : w3 = (w2 <<< 6) ||| UInt32.ofNat ((group b0 b1 b2).toNat / 2 ^ 6 % 64))
    (h4 : w4 = (w3 <<< 6) ||| UInt32.ofNat ((group b0 b1 b2).toNat / 2 ^ 0 % 64)) :
    ((w2 >>> UInt32.ofNat 4) &&& 0xff).toUInt8 = b0 ∧
      ((w3 >>> UInt32.ofNat 2) &&& 0xff).toUInt8 = b1 ∧
      ((w4 >>> UInt32.ofNat 0) &&& 0xff).toUInt8 = b2 := by
  have hlt : ∀ n : Nat, n % 64 < 64 := fun n => Nat.mod_lt n (by decide)
  have hgroup := toNat_group b0 b1 b2
  have h0 := b0.toNat_lt
  have h1 := b1.toNat_lt
  have hlast := b2.toNat_lt
  have hw2 : w2.toNat % 4096 = (group b0 b1 b2).toNat / 4096 := by
    rw [h2, toNat_push _ (hlt _), toNat_push _ (hlt _)]
    omega
  have hw3 : w3.toNat % 1024 = (group b0 b1 b2).toNat / 64 % 1024 := by
    rw [h3, toNat_push _ (hlt _)]
    omega
  have hw4 : w4.toNat % 256 = (group b0 b1 b2).toNat % 256 := by
    rw [h4, toNat_push _ (hlt _)]
    omega
  exact ⟨byte_eq (by decide) (by omega), byte_eq (by decide) (by omega),
    byte_eq (by decide) (by omega)⟩

/-- The induction is on the groups of the bytes, for any word. -/
theorem decodeBits_encodeGroups (v : Bytes) (buf : UInt32) :
    decodeBits (encodeGroups kB64url [] v) buf 0 = some v := by
  have hfound : ∀ (t : UInt32) {k : Nat}, k < 32 →
      strchr kB64url (sextet kB64url t k) = some (t.toNat / 2 ^ k % 64) :=
    fun t k hk => (strchr_sextet "-_" (.inr rfl) t hk).1
  fun_induction encodeGroups kB64url [] v generalizing buf with
  | case1 => rfl
  | case2 b0 t =>
    obtain ⟨hb0, -, -⟩ := pushed_bytes b0 0 0 buf rfl rfl rfl
    simp only [append_nil, decodeBits, hfound t (show 18 < 32 by decide),
      hfound t (show 12 < 32 by decide), Option.bind_eq_bind, Option.bind_some, Nat.reduceAdd,
      Nat.reduceLeDiff, Nat.reduceSub, ↓reduceIte, t, hb0]
    rfl
  | case3 b0 b1 t =>
    obtain ⟨hb0, hb1, -⟩ := pushed_bytes b0 b1 0 buf rfl rfl rfl
    simp only [decodeBits, hfound t (show 18 < 32 by decide), hfound t (show 12 < 32 by decide),
      hfound t (show 6 < 32 by decide), Option.bind_eq_bind, Option.bind_some, Nat.reduceAdd,
      Nat.reduceLeDiff, Nat.reduceSub, ↓reduceIte, t, hb0, hb1]
    rfl
  | case4 b0 b1 b2 rest t ih =>
    obtain ⟨hb0, hb1, hb2⟩ := pushed_bytes b0 b1 b2 buf rfl rfl rfl
    simp only [decodeBits, hfound t (show 18 < 32 by decide), hfound t (show 12 < 32 by decide),
      hfound t (show 6 < 32 by decide), hfound t (show 0 < 32 by decide), ih, Option.bind_eq_bind,
      Option.bind_some, Nat.reduceAdd, Nat.reduceLeDiff, Nat.reduceSub, ↓reduceIte, t, hb0, hb1,
      hb2]
    rfl

theorem ne_padding_of_mem (v : Bytes) : ∀ c ∈ encodeGroups kB64url [] v, c ≠ 61 := by
  have hne : ∀ (t : UInt32) {k : Nat}, k < 32 → sextet kB64url t k ≠ 61 :=
    fun t k hk => (strchr_sextet "-_" (.inr rfl) t hk).2
  fun_induction encodeGroups kB64url [] v with
  | case1 => simp
  | case2 b0 t => simp [hne]
  | case3 b0 b1 t => simp [hne]
  | case4 b0 b1 b2 rest t ih =>
    simp only [forall_mem_cons]
    exact ⟨hne t (by decide), hne t (by decide), hne t (by decide), hne t (by decide), ih⟩

/-- Both readers read what is written for any bytes, and the second one with any padding too. -/
theorem kBase64_roundTrip (v : Bytes) :
    kBase64Decode (kBase64Encode v) = .ok v ∧
      ∀ n, kBase64urlDecode (kBase64urlEncode v ++ replicate n 61) = .ok v := by
  obtain ⟨hquads, hlength⟩ := decodeQuads_encodeGroups v
  constructor
  · rw [kBase64Decode, kBase64Encode, if_neg (by rw [hlength]; decide), hquads]
  · intro n
    have hkeep : ∀ c ∈ (kBase64urlEncode v).reverse, c ≠ 61 := fun c hc =>
      ne_padding_of_mem v c (mem_reverse.mp hc)
    have hstrip : ((kBase64urlEncode v ++ replicate n 61).reverse.dropWhile (· = 61)).reverse =
        kBase64urlEncode v := by
      rw [reverse_append, reverse_replicate, dropWhile_append_of_pos (by simp)]
      cases hrev : (kBase64urlEncode v).reverse with
      | nil => exact (reverse_eq_nil_iff.mp hrev).symm
      | cons c rest =>
        rw [hrev] at hkeep
        rw [dropWhile_cons_of_neg (by simpa using hkeep c mem_cons_self), ← hrev, reverse_reverse]
    rw [kBase64urlDecode, hstrip, kBase64urlEncode, decodeBits_encodeGroups]

end Kryndel.Base64
