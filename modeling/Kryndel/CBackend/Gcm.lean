import Mathlib.Data.List.Nodup
import Kryndel.Wire.LittleEndian

/-!
# AES-GCM of the C runtime

A message is combined with a key stream, which the cipher makes of counters, and is followed by
a tag. What is said of messages holds for any block cipher; AES-256 is the one that the runtime has.
-/

namespace Kryndel.Gcm

open List

/-- A function from a key and a block to a block. -/
structure BlockCipher where
  encryptBlock : (key block : List UInt8) → List UInt8
  length_encryptBlock : ∀ key block, (encryptBlock key block).length = 16

def xorBytes (a b : List UInt8) : List UInt8 :=
  zipWith (· ^^^ ·) a b

/-! ## AES-256 -/

def kAesSbox : List UInt8 :=
  [0x63, 0x7c, 0x77, 0x7b, 0xf2, 0x6b, 0x6f, 0xc5, 0x30, 0x01, 0x67, 0x2b, 0xfe, 0xd7, 0xab, 0x76,
   0xca, 0x82, 0xc9, 0x7d, 0xfa, 0x59, 0x47, 0xf0, 0xad, 0xd4, 0xa2, 0xaf, 0x9c, 0xa4, 0x72, 0xc0,
   0xb7, 0xfd, 0x93, 0x26, 0x36, 0x3f, 0xf7, 0xcc, 0x34, 0xa5, 0xe5, 0xf1, 0x71, 0xd8, 0x31, 0x15,
   0x04, 0xc7, 0x23, 0xc3, 0x18, 0x96, 0x05, 0x9a, 0x07, 0x12, 0x80, 0xe2, 0xeb, 0x27, 0xb2, 0x75,
   0x09, 0x83, 0x2c, 0x1a, 0x1b, 0x6e, 0x5a, 0xa0, 0x52, 0x3b, 0xd6, 0xb3, 0x29, 0xe3, 0x2f, 0x84,
   0x53, 0xd1, 0x00, 0xed, 0x20, 0xfc, 0xb1, 0x5b, 0x6a, 0xcb, 0xbe, 0x39, 0x4a, 0x4c, 0x58, 0xcf,
   0xd0, 0xef, 0xaa, 0xfb, 0x43, 0x4d, 0x33, 0x85, 0x45, 0xf9, 0x02, 0x7f, 0x50, 0x3c, 0x9f, 0xa8,
   0x51, 0xa3, 0x40, 0x8f, 0x92, 0x9d, 0x38, 0xf5, 0xbc, 0xb6, 0xda, 0x21, 0x10, 0xff, 0xf3, 0xd2,
   0xcd, 0x0c, 0x13, 0xec, 0x5f, 0x97, 0x44, 0x17, 0xc4, 0xa7, 0x7e, 0x3d, 0x64, 0x5d, 0x19, 0x73,
   0x60, 0x81, 0x4f, 0xdc, 0x22, 0x2a, 0x90, 0x88, 0x46, 0xee, 0xb8, 0x14, 0xde, 0x5e, 0x0b, 0xdb,
   0xe0, 0x32, 0x3a, 0x0a, 0x49, 0x06, 0x24, 0x5c, 0xc2, 0xd3, 0xac, 0x62, 0x91, 0x95, 0xe4, 0x79,
   0xe7, 0xc8, 0x37, 0x6d, 0x8d, 0xd5, 0x4e, 0xa9, 0x6c, 0x56, 0xf4, 0xea, 0x65, 0x7a, 0xae, 0x08,
   0xba, 0x78, 0x25, 0x2e, 0x1c, 0xa6, 0xb4, 0xc6, 0xe8, 0xdd, 0x74, 0x1f, 0x4b, 0xbd, 0x8b, 0x8a,
   0x70, 0x3e, 0xb5, 0x66, 0x48, 0x03, 0xf6, 0x0e, 0x61, 0x35, 0x57, 0xb9, 0x86, 0xc1, 0x1d, 0x9e,
   0xe1, 0xf8, 0x98, 0x11, 0x69, 0xd9, 0x8e, 0x94, 0x9b, 0x1e, 0x87, 0xe9, 0xce, 0x55, 0x28, 0xdf,
   0x8c, 0xa1, 0x89, 0x0d, 0xbf, 0xe6, 0x42, 0x68, 0x41, 0x99, 0x2d, 0x0f, 0xb0, 0x54, 0xbb, 0x16]

def kAesRcon : List UInt8 :=
  [0x00, 0x01, 0x02, 0x04, 0x08, 0x10, 0x20, 0x40, 0x80, 0x1b, 0x36]

def subByte (byte : UInt8) : UInt8 :=
  kAesSbox.getD byte.toNat 0

def kAesXtime (x : UInt8) : UInt8 :=
  (x <<< 1) ^^^ (if x &&& 0x80 ≠ 0 then 0x1b else 0)

/-- The loop of `k_aes_expand_key`, for the bytes from `4 * n` on. -/
def expandWord (rk : List UInt8) (n : Nat) : List UInt8 :=
  let word := (rk.drop (4 * n - 4)).take 4
  let t :=
    if 4 * n % 32 = 0 then
      ((word.drop 1 ++ word.take 1).map subByte).modify 0 (· ^^^ kAesRcon.getD (4 * n / 32) 0)
    else if 4 * n % 32 = 16 then word.map subByte
    else word
  rk ++ xorBytes ((rk.drop (4 * n - 32)).take 4) t

/-- `k_aes_expand_key`. -/
def kAesExpandKey (key : List UInt8) : List UInt8 :=
  (range' 8 52).foldl expandWord key

/-- A column of `k_aes_encrypt_block`, from the byte `c * 4` on. -/
def mixColumn (t : List UInt8) (c : Nat) : List UInt8 :=
  let a (i : Nat) := t.getD (c * 4 + i % 4) 0
  let x := a 0 ^^^ a 1 ^^^ a 2 ^^^ a 3
  (range 4).map fun i => a i ^^^ x ^^^ kAesXtime (a i ^^^ a (i + 1))

/-- The bytes of a block with those of one round's key. -/
def addRoundKey (rk s : List UInt8) (round : Nat) : List UInt8 :=
  (range 16).map fun i => s.getD i 0 ^^^ rk.getD (round * 16 + i) 0

/-- The loop of `k_aes_encrypt_block`. -/
def aesRound (rk s : List UInt8) (round : Nat) : List UInt8 :=
  let t := [0, 5, 10, 15, 4, 9, 14, 3, 8, 13, 2, 7, 12, 1, 6, 11].map fun i =>
    subByte (s.getD i 0)
  addRoundKey rk (if round ≠ 14 then (range 4).flatMap (mixColumn t) else t) round

/-- `k_aes_encrypt_block`. -/
def kAesEncryptBlock (rk block : List UInt8) : List UInt8 :=
  (range' 1 14).foldl (aesRound rk) (addRoundKey rk block 0)

theorem length_kAesEncryptBlock (rk block : List UInt8) :
    (kAesEncryptBlock rk block).length = 16 := by
  have hrounds : ∀ (rounds : List Nat) (s : List UInt8), s.length = 16 →
      (rounds.foldl (aesRound rk) s).length = 16 := by
    intro rounds
    induction rounds with
    | nil => exact fun s hs => hs
    | cons round rounds ih => exact fun s _ => ih _ (by simp [aesRound, addRoundKey])
  exact hrounds _ _ (by simp [addRoundKey])

/-- The cipher of the runtime, with its keys expanded. -/
def aes256 : BlockCipher where
  encryptBlock key := kAesEncryptBlock (kAesExpandKey key)
  length_encryptBlock _ := length_kAesEncryptBlock _

/-! ## The tag -/

/-- The end of the loop of `k_gf_mul`: `v` is shifted by one bit and reduced. -/
def shiftBlock (v : List UInt8) : List UInt8 :=
  let shifted := zipWith (fun (before byte : UInt8) => (byte >>> 1) ||| ((before &&& 1) <<< 7))
    (0 :: v) v
  if v.getD 15 0 &&& 1 = 1 then shifted.modify 0 (· ^^^ 0xe1) else shifted

/-- The loop of `k_gf_mul`, on `z` and `v`. -/
def gfRound (x : List UInt8) (zv : List UInt8 × List UInt8) (i : Nat) :
    List UInt8 × List UInt8 :=
  (if (x.getD (i >>> 3) 0 >>> UInt8.ofNat (7 - i % 8)) &&& 1 = 1 then xorBytes zv.1 zv.2 else zv.1,
    shiftBlock zv.2)

/-- `k_gf_mul`. -/
def kGfMul (x y : List UInt8) : List UInt8 :=
  ((range 128).foldl (gfRound x) (replicate 16 0, y)).1

/-- The loop of `k_ghash`. -/
def ghashLoop (H : List UInt8) : Nat → List UInt8 → List UInt8 → List UInt8
  | 0, y, _ => y
  | n + 1, y, a =>
    let blk := a.take 16 ++ replicate (16 - (a.take 16).length) 0
    ghashLoop H n (kGfMul (xorBytes y blk) H) (a.drop 16)

/-- `k_ghash`. -/
def kGhash (H a : List UInt8) : List UInt8 :=
  ghashLoop H ((a.length + 15) / 16) (replicate 16 0) a

variable (C : BlockCipher) (key : List UInt8)

/-- `k_gcm_tag`. -/
def kGcmTag (H iv ct : List UInt8) : List UInt8 :=
  let j0 := iv ++ [0, 0, 0, 1]
  let bl := UInt64.ofNat ct.length * 8
  let lenblk := replicate 8 0 ++ (range 8).map fun i => (bl >>> UInt64.ofNat (56 - i * 8)).toUInt8
  let s := xorBytes (xorBytes (replicate 16 0) (kGhash H ct)) lenblk
  xorBytes (kGfMul s H) (C.encryptBlock key j0)

/-! ## The key stream -/

/-- The loop of `k_gcm_inc32`, from the last byte on. -/
def carry : List UInt8 → List UInt8
  | [] => []
  | byte :: rest => if byte + 1 ≠ 0 then (byte + 1) :: rest else (byte + 1) :: carry rest

/-- `k_gcm_inc32`. -/
def kGcmInc32 (c : List UInt8) : List UInt8 :=
  c.take 12 ++ (carry (c.drop 12).reverse).reverse

/-- The loop of `k_gcm_ctr`. -/
def ctrLoop : Nat → List UInt8 → List UInt8 → List UInt8
  | 0, _, _ => []
  | n + 1, ctr, input =>
    xorBytes (input.take 16) (C.encryptBlock key ctr) ++
      ctrLoop n (kGcmInc32 ctr) (input.drop 16)

/-- `k_gcm_ctr`. -/
def kGcmCtr (iv input : List UInt8) : List UInt8 :=
  ctrLoop C key ((input.length + 15) / 16) (iv ++ [0, 0, 0, 2]) input

/-! ## Messages -/

/-- `k_crypto_aes_gcm_encrypt`. -/
def kCryptoAesGcmEncrypt (nonce plain : List UInt8) : Except String (List UInt8) :=
  if key.length ≠ 32 then .error "AES-256-GCM key must be 32 bytes"
  else if nonce.length ≠ 12 then .error "AES-GCM nonce must be 12 bytes"
  else
    let H := C.encryptBlock key (replicate 16 0)
    let ct := kGcmCtr C key nonce plain
    .ok (ct ++ kGcmTag C key H nonce ct)

/-- `k_crypto_aes_gcm_decrypt`. -/
def kCryptoAesGcmDecrypt (nonce ct : List UInt8) : Except String (List UInt8) :=
  if key.length ≠ 32 then .error "AES-256-GCM key must be 32 bytes"
  else if nonce.length ≠ 12 then .error "AES-GCM nonce must be 12 bytes"
  else if ct.length < 16 then .error "AES-GCM authentication failed"
  else
    let H := C.encryptBlock key (replicate 16 0)
    let n := ct.length - 16
    let tag := kGcmTag C key H nonce (ct.take n)
    let diff := (xorBytes tag (ct.drop n)).foldl (· ||| ·) 0
    if diff ≠ 0 then .error "AES-GCM authentication failed"
    else .ok (kGcmCtr C key nonce (ct.take n))

/-! ## Bytes -/

@[simp] theorem length_xorBytes (a b : List UInt8) :
    (xorBytes a b).length = min a.length b.length :=
  length_zipWith

/-- What is combined with the same bytes twice is as it was. -/
theorem xorBytes_cancel {a s : List UInt8} (h : a.length ≤ s.length) :
    xorBytes (xorBytes a s) s = a := by
  induction a generalizing s with
  | nil => rfl
  | cons x a ih =>
    cases s with
    | nil => cases h
    | cons y s =>
      simp only [xorBytes, zipWith_cons_cons]
      rw [← xorBytes, ← xorBytes, ih (Nat.le_of_succ_le_succ h), UInt8.xor_assoc, UInt8.xor_self,
        UInt8.xor_zero]

theorem xorBytes_append (input e rest : List UInt8) :
    xorBytes input (e ++ rest) =
      xorBytes (input.take e.length) e ++ xorBytes (input.drop e.length) rest := by
  induction e generalizing input with
  | nil => simp [xorBytes]
  | cons y e ih =>
    cases input with
    | nil => simp [xorBytes]
    | cons x input =>
      simp only [xorBytes, cons_append, zipWith_cons_cons, length_cons, take_succ_cons,
        drop_succ_cons] at ih ⊢
      rw [ih]

theorem foldl_or_eq_zero (bytes : List UInt8) (diff : UInt8) :
    bytes.foldl (· ||| ·) diff = 0 ↔ diff = 0 ∧ ∀ byte ∈ bytes, byte = 0 := by
  induction bytes generalizing diff with
  | nil => simp
  | cons byte bytes ih => simp [ih, UInt8.or_eq_zero_iff, and_assoc]

/-- The comparison that looks at all bytes. -/
theorem diff_eq_zero {a b : List UInt8} (h : a.length = b.length) :
    (xorBytes a b).foldl (· ||| ·) 0 = 0 ↔ a = b := by
  rw [foldl_or_eq_zero]
  induction a generalizing b with
  | nil => cases b with
    | nil => simp [xorBytes]
    | cons y b => cases h
  | cons x a ih =>
    cases b with
    | nil => cases h
    | cons y b =>
      have hrest := ih (Nat.succ.inj h)
      simp only [true_and, xorBytes, zipWith_cons_cons, forall_mem_cons, cons.injEq] at hrest ⊢
      rw [hrest, UInt8.xor_eq_zero_iff]

theorem length_kGfMul (x : List UInt8) {y : List UInt8} (hy : y.length = 16) :
    (kGfMul x y).length = 16 := by
  have hloop : ∀ (rounds : List Nat) (z v : List UInt8), z.length = 16 → v.length = 16 →
      ((rounds.foldl (gfRound x) (z, v)).1).length = 16 := by
    intro rounds
    induction rounds with
    | nil => exact fun z v hz hv => hz
    | cons i rounds ih =>
      intro z v hz hv
      apply ih
      · show (if _ then xorBytes z v else z).length = 16
        split <;> simp [hz, hv]
      · unfold shiftBlock
        simp only
        split <;> simp [hv]
  exact hloop _ _ _ (by simp) hy

theorem length_kGcmTag (nonce ct H : List UInt8) (hH : H.length = 16) :
    (kGcmTag C key H nonce ct).length = 16 := by
  simp [kGcmTag, length_kGfMul _ hH, C.length_encryptBlock]

/-! ## Counters -/

/-- The counters of so many blocks, from one on. -/
def counterBlocks : Nat → List UInt8 → List (List UInt8)
  | 0, _ => []
  | n + 1, ctr => ctr :: counterBlocks n (kGcmInc32 ctr)

theorem length_counterBlocks (n : Nat) (ctr : List UInt8) : (counterBlocks n ctr).length = n := by
  induction n generalizing ctr with
  | zero => rfl
  | succ n ih => simp [counterBlocks, ih]

theorem length_keyStream (blocks : List (List UInt8)) :
    (blocks.flatMap (C.encryptBlock key)).length = 16 * blocks.length := by
  induction blocks with
  | nil => rfl
  | cons ctr blocks ih =>
    rw [flatMap_cons, length_append, C.length_encryptBlock, ih, length_cons]
    omega

/-- The loop combines its input with the encrypted counters. -/
theorem ctrLoop_eq {n : Nat} {input : List UInt8} (ctr : List UInt8) (h : input.length ≤ 16 * n) :
    ctrLoop C key n ctr input =
      xorBytes input ((counterBlocks n ctr).flatMap (C.encryptBlock key)) := by
  induction n generalizing ctr input with
  | zero =>
    rw [length_eq_zero_iff.mp (Nat.le_zero.mp h)]
    rfl
  | succ n ih =>
    rw [counterBlocks, flatMap_cons, xorBytes_append, C.length_encryptBlock, ctrLoop,
      ih (kGcmInc32 ctr) (by rw [length_drop]; omega)]

theorem kGcmCtr_eq (iv input : List UInt8) :
    kGcmCtr C key iv input = xorBytes input
      ((counterBlocks ((input.length + 15) / 16) (iv ++ [0, 0, 0, 2])).flatMap
        (C.encryptBlock key)) :=
  ctrLoop_eq C key _ (by omega)

theorem kGcmCtr_spec (iv input : List UInt8) :
    (kGcmCtr C key iv input).length = input.length ∧
      kGcmCtr C key iv (kGcmCtr C key iv input) = input := by
  have hlong : input.length ≤ ((counterBlocks ((input.length + 15) / 16)
      (iv ++ [0, 0, 0, 2])).flatMap (C.encryptBlock key)).length := by
    rw [length_keyStream, length_counterBlocks]
    omega
  have hlength : (kGcmCtr C key iv input).length = input.length := by
    rw [kGcmCtr_eq, length_xorBytes, Nat.min_eq_left hlong]
  refine ⟨hlength, ?_⟩
  rw [kGcmCtr_eq, hlength, kGcmCtr_eq, xorBytes_cancel hlong]

/-- What is decrypted under a key and a nonce is what has been encrypted under them. -/
theorem kCryptoAesGcmDecrypt_iff (nonce plain message : List UInt8) :
    kCryptoAesGcmDecrypt C key nonce message = .ok plain ↔
      kCryptoAesGcmEncrypt C key nonce plain = .ok message := by
  unfold kCryptoAesGcmDecrypt kCryptoAesGcmEncrypt
  by_cases hkey : key.length ≠ 32
  · simp [hkey]
  by_cases hnonce : nonce.length ≠ 12
  · simp [hkey, hnonce]
  rw [if_neg hkey, if_neg hnonce, if_neg hkey, if_neg hnonce]
  have htag : ∀ ct, (kGcmTag C key (C.encryptBlock key (replicate 16 0)) nonce ct).length = 16 :=
    fun ct => length_kGcmTag C key nonce ct _ (C.length_encryptBlock _ _)
  obtain ⟨hlength, hagain⟩ := kGcmCtr_spec C key nonce plain
  simp only [Except.ok.injEq]
  constructor
  · intro h
    split_ifs at h with hshort hdiff
    rw [not_not, diff_eq_zero (by rw [htag, length_drop]; omega)] at hdiff
    cases h
    rw [(kGcmCtr_spec C key nonce _).2, hdiff, take_append_drop]
  · rintro rfl
    have hn : (kGcmCtr C key nonce plain ++ kGcmTag C key (C.encryptBlock key (replicate 16 0))
        nonce (kGcmCtr C key nonce plain)).length - 16 = (kGcmCtr C key nonce plain).length := by
      rw [length_append, htag, Nat.add_sub_cancel]
    rw [if_neg (by rw [length_append, htag]; omega), hn, take_left, drop_left,
      if_neg (by rw [not_not, diff_eq_zero rfl]), hagain]

/-- A nonce with a number behind it. -/
def counter (nonce : List UInt8) (i : Nat) : List UInt8 :=
  nonce ++ (Wire.littleEndian 4 i).reverse

theorem carry_littleEndian (n i : Nat) :
    carry (Wire.littleEndian n i) = Wire.littleEndian n (i + 1) := by
  induction n generalizing i with
  | zero => rfl
  | succ n ih =>
    have hbyte : UInt8.ofNat i + 1 = UInt8.ofNat (i + 1) := by simp
    rw [Wire.littleEndian, Wire.littleEndian, carry, hbyte]
    have hzero : UInt8.ofNat (i + 1) = 0 ↔ (i + 1) % 256 = 0 := by
      rw [← UInt8.toNat_inj]
      simp
    split
    · next h =>
      -- the carry ends at a byte that does not overflow
      rw [show (i + 1) / 256 = i / 256 by rw [ne_eq, hzero] at h; omega]
    · next h =>
      rw [ih, show (i + 1) / 256 = i / 256 + 1 by rw [not_not, hzero] at h; omega]

theorem kGcmInc32_counter {nonce : List UInt8} (hnonce : nonce.length = 12) (i : Nat) :
    kGcmInc32 (counter nonce i) = counter nonce (i + 1) := by
  rw [kGcmInc32, counter, take_left' hnonce, drop_left' hnonce, reverse_reverse,
    carry_littleEndian, counter]

theorem counterBlocks_eq {nonce : List UInt8} (hnonce : nonce.length = 12) (n i : Nat) :
    counterBlocks n (counter nonce i) = (range n).map fun k => counter nonce (i + k) := by
  induction n generalizing i with
  | zero => rfl
  | succ n ih =>
    rw [counterBlocks, kGcmInc32_counter hnonce, ih, range_succ_eq_map, map_cons, map_map]
    simp only [Nat.add_zero, cons.injEq, true_and, map_inj_left, Function.comp_apply]
    intro k _
    rw [show i + 1 + k = i + (k + 1) by omega]

theorem counter_inj {nonce : List UInt8} {i j : Nat} :
    counter nonce i = counter nonce j ↔ i % 2 ^ 32 = j % 2 ^ 32 := by
  rw [counter, counter, append_cancel_left_eq, reverse_inj]
  constructor
  · intro h
    have hread := congrArg Wire.ofLittleEndian h
    rwa [Wire.ofLittleEndian_littleEndian, Wire.ofLittleEndian_littleEndian] at hread
  · intro h
    rw [← Wire.littleEndian_mod 4 i, ← Wire.littleEndian_mod 4 j]
    exact congrArg (Wire.littleEndian 4) h

/-- The key stream is made of counters, which are different from each other and from the one of
    the tag exactly if there are fewer than 2 ^ 32. Nothing in the code bounds the message. -/
theorem kGcmCtr_counters {nonce : List UInt8} (hnonce : nonce.length = 12) (input : List UInt8) :
    let blocks := (input.length + 15) / 16
    let counters := counterBlocks blocks (nonce ++ [0, 0, 0, 2])
    kGcmCtr C key nonce input = xorBytes input (counters.flatMap (C.encryptBlock key)) ∧
      (((nonce ++ [0, 0, 0, 1]) :: counters).Nodup ↔ blocks < 2 ^ 32) := by
  refine ⟨kGcmCtr_eq C key nonce input, ?_⟩
  generalize (input.length + 15) / 16 = n
  have hcounters : (nonce ++ [0, 0, 0, 1]) :: counterBlocks n (nonce ++ [0, 0, 0, 2]) =
      (range (n + 1)).map fun k => counter nonce (1 + k) := by
    rw [← counterBlocks_eq hnonce, counterBlocks, kGcmInc32_counter hnonce]
    rfl
  rw [hcounters, nodup_map_iff_inj_on nodup_range]
  constructor
  · intro hinj
    by_contra hmany
    -- the counter of the tag comes again after 2 ^ 32 blocks
    have heq := hinj 0 (mem_range.mpr (by omega)) (2 ^ 32) (mem_range.mpr (by omega))
      (counter_inj.mpr (by omega))
    omega
  · intro hfew a ha b hb heq
    have hmod := counter_inj.mp heq
    rw [mem_range] at ha hb
    omega

theorem kGcmCtr_counters_block :
    kGcmCtr aes256 (replicate 32 0) (replicate 12 0) [1] =
        xorBytes [1] ((counterBlocks 1 (replicate 12 0 ++ [0, 0, 0, 2])).flatMap
          (aes256.encryptBlock (replicate 32 0))) ∧
      (((replicate 12 0 ++ [0, 0, 0, 1]) ::
        counterBlocks 1 (replicate 12 0 ++ [0, 0, 0, 2])).Nodup ↔ 1 < 2 ^ 32) :=
  kGcmCtr_counters aes256 (replicate 32 0) length_replicate [1]

end Kryndel.Gcm
