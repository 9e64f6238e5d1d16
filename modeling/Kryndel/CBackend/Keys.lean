import Kryndel.Artifact.KeyDerivation

/-!
# Key derivation in the C runtime

The C runtime writes a key into memory of its length, block by block, and stops inside the last
one. It derives the keys that the executor derives.
-/

namespace Kryndel.KeyDerivation

open Standard

-- `k_hmac_sha256_raw` is a parameter.
variable (H : Hmac)

/-- The loops that write as much of a block as there is room for. -/
def putBlock (len : Nat) (out t : Bytes) : Bytes :=
  out ++ t.take (len - out.length)

/-- The iterations of a block after the first, so many of them. -/
def kIterate (pw : Bytes) : Nat → Bytes → Bytes → Bytes
  | 0, _, t => t
  | n + 1, u, t =>
    let u := H.mac pw u
    kIterate pw n u (List.zipWith (· ^^^ ·) t u)

/-- The loop over the blocks of `k_crypto_pbkdf2_sha256`, so many of them from `b` on. -/
def kDerivedBlocks (pw salt : Bytes) (it len : Nat) : Nat → Nat → Bytes → Bytes
  | 0, _, out => out
  | n + 1, b, out =>
    let saltbuf := salt ++ [UInt8.ofNat (b >>> 24), UInt8.ofNat (b >>> 16), UInt8.ofNat (b >>> 8),
      UInt8.ofNat b]
    let u := H.mac pw saltbuf
    kDerivedBlocks pw salt it len n (b + 1) (putBlock len out (kIterate H pw (it - 1) u u))

/-- `k_crypto_pbkdf2_sha256`. -/
def kCryptoPbkdf2Sha256 (pw salt : Bytes) (it len : Int) : Except String Bytes :=
  if it < 1 then .error "PBKDF2 iterations must be at least 1"
  else if len < 1 ∨ len > 1048576 then .error "PBKDF2 length must be between 1 and 1048576"
  else .ok (kDerivedBlocks H pw salt it.toNat len.toNat ((len.toNat + 32 - 1) / 32) 1 [])

/-- The loop of `k_crypto_hkdf_sha256`, for so many rounds at most. -/
def kExpandBlocks (prk info : Bytes) (len : Nat) : Nat → Bytes → Bytes → UInt8 → Option Bytes
  | rounds, out, t, counter =>
    if out.length < len then
      match rounds with
      | 0 => none
      | rounds + 1 =>
        let t := H.mac prk (t ++ info ++ [counter])
        kExpandBlocks prk info len rounds (putBlock len out t) t (counter + 1)
    else some out

/-- `k_crypto_hkdf_sha256`. A round of the loop writes at least one byte. -/
def kCryptoHkdfSha256 (ikm salt info : Bytes) (len : Int) : Option (Except String Bytes) :=
  if len < 1 ∨ len > 8160 then some (.error "HKDF length must be between 1 and 8160")
  else
    let salt := if salt.length ≠ 0 then salt else List.replicate 32 0
    (kExpandBlocks H (H.mac salt ikm) info len.toNat len.toNat [] [] 1).map .ok

/-! ## The keys -/

theorem putBlock_take (len : Nat) (done t : Bytes) :
    putBlock len (done.take len) t = (done ++ t).take len := by
  rw [putBlock, List.take_append, List.length_take]
  congr 2
  omega

/-- Enough blocks hold the ones that are needed. -/
theorem taken_blocks (prk info : Bytes) {len i : Nat} (h : len ≤ 32 * i) :
    ((List.range i).flatMap fun k => expand H prk info (k + 1)).take len =
      truncated (expand H prk info) len := by
  have hlength := length_flatMap_blocks (expand H prk info) (length_expand H prk info) i
  rw [truncated_take (length_expand H prk info) h, truncated,
    show (32 * i + 31) / 32 = i by omega, List.take_of_length_le hlength.le]

theorem kIterate_eq (pw salt : Bytes) (i n j : Nat) :
    kIterate H pw n (digest H pw salt i j) (block H pw salt i j) = block H pw salt i (j + n) := by
  induction n generalizing j with
  | zero => rfl
  | succ n ih =>
    rw [kIterate, show j + (n + 1) = j + 1 + n by omega]
    exact ih (j + 1)

theorem kDerivedBlocks_eq (pw salt : Bytes) (it len n b : Nat) (done : Bytes) :
    kDerivedBlocks H pw salt it len n b (done.take len) =
      (done ++ (List.range n).flatMap fun k => block H pw salt (b + k) (it - 1)).take len := by
  induction n generalizing b done with
  | zero => simp [kDerivedBlocks]
  | succ n ih =>
    have hoctets : [UInt8.ofNat (b >>> 24), UInt8.ofNat (b >>> 16), UInt8.ofNat (b >>> 8),
        UInt8.ofNat b] = octets b := by
      simp [octets, Nat.shiftRight_eq_div_pow]
    have hblock : kIterate H pw (it - 1) (H.mac pw (salt ++ octets b))
        (H.mac pw (salt ++ octets b)) = block H pw salt b (it - 1) := by
      have h := kIterate_eq H pw salt b (it - 1) 0
      rwa [Nat.zero_add] at h
    simp only [kDerivedBlocks, hoctets, hblock, putBlock_take, ih, List.range_succ_eq_map,
      List.flatMap_cons, List.flatMap_map, List.append_assoc, Nat.add_zero, Nat.succ_eq_add_one,
      Nat.add_assoc, Nat.add_comm 1]

theorem kExpandBlocks_eq (prk info : Bytes) (len i rounds : Nat) (h : len ≤ 32 * (i + rounds)) :
    kExpandBlocks H prk info len rounds
        (((List.range i).flatMap fun k => expand H prk info (k + 1)).take len)
        (expand H prk info i) (UInt8.ofNat (i + 1)) =
      some (truncated (expand H prk info) len) := by
  have hlength := length_flatMap_blocks (expand H prk info) (length_expand H prk info)
  induction rounds generalizing i with
  | zero =>
    have hdone : ¬ (((List.range i).flatMap fun k => expand H prk info (k + 1)).take len).length <
        len := by
      rw [List.length_take, hlength]
      omega
    rw [kExpandBlocks, if_neg hdone, taken_blocks H prk info (by omega)]
  | succ rounds ih =>
    rw [kExpandBlocks, List.length_take, hlength]
    split
    · next hmore =>
      -- what has been written is the beginning of the blocks so far, also inside of the last one
      have hnext : UInt8.ofNat (i + 1) + 1 = UInt8.ofNat (i + 1 + 1) := by simp
      have hblocks : ((List.range i).flatMap fun k => expand H prk info (k + 1)) ++
          expand H prk info (i + 1) =
            (List.range (i + 1)).flatMap fun k => expand H prk info (k + 1) := by
        simp [List.range_succ, List.flatMap_append]
      have hstep := ih (i + 1) (by omega)
      rw [← hblocks, ← putBlock_take, ← hnext] at hstep
      exact hstep
    · next hdone => rw [taken_blocks H prk info (by omega)]

/-- The C runtime derives the keys that the executor derives, with the same errors. -/
theorem kCrypto_keys (spare : Nat → Bytes) (password salt info : Bytes) (iterations length : Int) :
    cryptoPBKDF2SHA256 H spare password salt iterations length =
        some (kCryptoPbkdf2Sha256 H password salt iterations length) ∧
      cryptoHKDFSHA256 H spare password salt info length =
        kCryptoHkdfSha256 H password salt info length := by
  constructor
  · unfold kCryptoPbkdf2Sha256
    split_ifs with hiterations hrange
    · rw [cryptoPBKDF2SHA256, if_pos hiterations]
    · rw [cryptoPBKDF2SHA256, if_neg hiterations]
      exact if_pos hrange
    · have hblocks := kDerivedBlocks_eq H password salt iterations.toNat length.toNat
        ((length.toNat + 32 - 1) / 32) 1 []
      rw [List.take_nil] at hblocks
      rw [cryptoPBKDF2SHA256_eq H spare password salt (by omega) (by omega) (by omega), hblocks,
        List.nil_append]
      simp only [pbkdf2, truncated, Nat.add_comm 1]
      rfl
  · by_cases hrange : length < 1 ∨ length > 8160
    · rw [kCryptoHkdfSha256, if_pos hrange]
      exact if_pos hrange
    · have hblocks := kExpandBlocks_eq H (extract H salt password) info length.toNat 0 length.toNat
        (by omega)
      rw [List.range_zero, List.flatMap_nil, List.take_nil] at hblocks
      have hsalt : H.mac (if salt.length ≠ 0 then salt else List.replicate 32 0) password =
          extract H salt password := by
        rw [extract]
        cases salt <;> rfl
      rw [cryptoHKDFSHA256_eq H spare password salt info (by omega) (by omega), kCryptoHkdfSha256,
        if_neg hrange]
      simp only [hsalt]
      exact (congrArg (Option.map Except.ok) hblocks).symm

end Kryndel.KeyDerivation
