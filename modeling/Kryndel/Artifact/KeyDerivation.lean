import Kryndel.Memory.Buffers
import Kryndel.Artifact.Sealed

/-!
# Key derivation

PBKDF2 and HKDF with HMAC-SHA-256. The loops of the code overwrite one buffer with the digests
of an iteration and combine another one with it, and count blocks in four bytes, or in one. The
definitions of the standards have no buffers.

HMAC is a parameter, and so is the room that `append` leaves in a new array.
-/

namespace Kryndel.KeyDerivation

open Buffers

/-- HMAC-SHA-256. -/
structure Hmac where
  mac : (key message : Bytes) → Bytes
  length_mac : ∀ key message, (mac key message).length = 32

/-! ## The standards -/

namespace Standard

variable (H : Hmac)

/-- A number in four bytes, the most significant one first. -/
def octets (i : Nat) : Bytes :=
  [3, 2, 1, 0].map fun k => UInt8.ofNat (i / 256 ^ k)

/-- The digests of a block: `U_1`, and each next one of the one before it. -/
def digest (password salt : Bytes) (i : Nat) : Nat → Bytes
  | 0 => H.mac password (salt ++ octets i)
  | j + 1 => H.mac password (digest password salt i j)

/-- The block `T_i` of so many digests after the first. -/
def block (password salt : Bytes) (i : Nat) : Nat → Bytes
  | 0 => digest H password salt i 0
  | j + 1 => List.zipWith (· ^^^ ·) (block password salt i j) (digest H password salt i (j + 1))

/-- The first `length` bytes of blocks of 32 bytes, which are numbered from 1 on. -/
def truncated (blocks : Nat → Bytes) (length : Nat) : Bytes :=
  ((List.range ((length + 31) / 32)).flatMap fun i => blocks (i + 1)).take length

/-- PBKDF2. -/
def pbkdf2 (password salt : Bytes) (iterations length : Nat) : Bytes :=
  truncated (fun i => block H password salt i (iterations - 1)) length

/-- The extracted key of HKDF; without a salt there are 32 zeros. -/
def extract (salt ikm : Bytes) : Bytes :=
  H.mac (if salt = [] then List.replicate 32 0 else salt) ikm

/-- The block `T(i)` of HKDF. -/
def expand (prk info : Bytes) : Nat → Bytes
  | 0 => []
  | i + 1 => H.mac prk (expand prk info i ++ info ++ [UInt8.ofNat (i + 1)])

/-- HKDF. -/
def hkdf (ikm salt info : Bytes) (length : Nat) : Bytes :=
  truncated (expand H (extract H salt ikm) info) length

end Standard

/-! ## The functions of the source -/

section Functions

variable (H : Hmac) (spare : Nat → Bytes)

/-- The iterations of a block after the first, so many of them. -/
def iterate (password : Bytes) (u t : Buffer) : Nat → BufferM UInt8 Unit
  | 0 => pure ()
  | n + 1 => do
    let h ← get
    let u ← append spare ⟨u.array, 0⟩ (H.mac password (elements h u))
    combine (· ^^^ ·) t u
    iterate password u t n

/-- A block. -/
def derivedBlock (password salt : Bytes) (iterations : Nat) (buf : Buffer) (block : Nat) :
    BufferM UInt8 Buffer := do
  assign buf 0 (UInt8.ofNat (block >>> 24))
  assign buf 1 (UInt8.ofNat (block >>> 16))
  assign buf 2 (UInt8.ofNat (block >>> 8))
  assign buf 3 (UInt8.ofNat block)
  let h ← get
  let u ← append spare .nil (H.mac password (salt ++ elements h buf))
  let t ← alloc (List.replicate u.length 0)
  copy t u
  iterate H spare password u t (iterations - 1)
  return t

/-- The loop over the blocks, so many of them from one on. -/
def derivedBlocks (password salt : Bytes) (iterations : Nat) (buf : Buffer) :
    Nat → Nat → Buffer → BufferM UInt8 Buffer
  | _, 0, derived => pure derived
  | block, n + 1, derived => do
    let t ← derivedBlock H spare password salt iterations buf block
    let h ← get
    let derived ← append spare derived (elements h t)
    derivedBlocks password salt iterations buf (block + 1) n derived

/-- `cryptoPBKDF2SHA256`; `none` is a panic. -/
def cryptoPBKDF2SHA256 (password salt : Bytes) (iterations length : Int) :
    Option (Except String Bytes) :=
  if iterations < 1 then some (.error "PBKDF2 iterations must be at least 1")
  else if length < 1 ∨ length > 2 ^ 20 then
    some (.error "PBKDF2 length must be between 1 and 1048576")
  else do
    let numBlocks := (length.toNat + 32 - 1) / 32
    let body : BufferM UInt8 Buffer := do
      let buf ← alloc (List.replicate 4 0)
      let derived ← derivedBlocks H spare password salt iterations.toNat buf 1 numBlocks .nil
      reslice derived length.toNat
    let (out, h) ← body []
    return .ok (elements h out)

/-- The loop of `cryptoHKDFSHA256`, for so many rounds at most. -/
def expandBlocks (prk info : Bytes) (length : Nat) :
    Nat → Buffer → Buffer → UInt8 → BufferM UInt8 Buffer
  | rounds, out, block, counter =>
    if out.length < length then
      match rounds with
      | 0 => fun _ => none
      | rounds + 1 => do
        let h ← get
        let block ← append spare .nil (H.mac prk (elements h block ++ info ++ [counter]))
        let h ← get
        let out ← append spare out (elements h block)
        expandBlocks prk info length rounds out block (counter + 1)
    else pure out

/-- `cryptoHKDFSHA256`; `none` is a panic. A round of the loop adds at least one byte. -/
def cryptoHKDFSHA256 (ikm salt info : Bytes) (length : Int) : Option (Except String Bytes) :=
  if length < 1 ∨ length > 255 * 32 then
    some (.error "HKDF length must be between 1 and 8160")
  else do
    let salt := if salt.length = 0 then List.replicate 32 0 else salt
    let prk := H.mac salt ikm
    let body : BufferM UInt8 Buffer := do
      let out ← expandBlocks H spare prk info length.toNat length.toNat .nil .nil 1
      reslice out length.toNat
    let (out, h) ← body []
    return .ok (elements h out)

end Functions

/-! ## Blocks -/

section Blocks

variable (H : Hmac) (spare : Nat → Bytes) (password salt : Bytes) {h : Arrays UInt8}

theorem Standard.length_digest (i j : Nat) : (digest H password salt i j).length = 32 := by
  cases j <;> exact H.length_mac _ _

theorem Standard.length_block (i j : Nat) : (block H password salt i j).length = 32 := by
  induction j with
  | zero => exact length_digest H password salt i 0
  | succ j ih => rw [block, List.length_zipWith, ih, length_digest, Nat.min_self]

theorem Standard.length_expand (prk info : Bytes) (i : Nat) :
    (expand H prk info (i + 1)).length = 32 :=
  H.length_mac _ _

theorem digest_run {a i j : Nat} {rest : Bytes}
    (hu : h[a]? = some (Standard.digest H password salt i j ++ rest)) :
    append spare ⟨some a, 0⟩ (H.mac password (elements h ⟨some a, 32⟩)) h =
      some (⟨some a, 32⟩, h.set a (Standard.digest H password salt i (j + 1) ++ rest)) := by
  have hlength := Standard.length_digest H password salt i
  have hdigest : H.mac password (elements h ⟨some a, 32⟩) =
      Standard.digest H password salt i (j + 1) := by
    rw [elements_eq hu, ← hlength j, List.take_left]
    rfl
  have hdrop : (Standard.digest H password salt i j ++ rest).drop 32 = rest := by
    rw [← hlength j, List.drop_left]
  have hroom : 0 + (Standard.digest H password salt i (j + 1)).length ≤
      (Standard.digest H password salt i j ++ rest).length := by
    rw [List.length_append, hlength, hlength]
    omega
  rw [hdigest, append_fits hu hroom, hlength, Nat.zero_add, hdrop]
  rfl

/-- The iterations overwrite the buffer of the digests and combine the other one with it. -/
theorem iterate_run {a b i j : Nat} (hab : a ≠ b) {rest : Bytes}
    (hu : h[a]? = some (Standard.digest H password salt i j ++ rest))
    (ht : h[b]? = some (Standard.block H password salt i j)) (n : Nat) :
    iterate H spare password ⟨some a, 32⟩ ⟨some b, 32⟩ n h =
      some ((), (h.set a (Standard.digest H password salt i (j + n) ++ rest)).set b
        (Standard.block H password salt i (j + n))) := by
  induction n generalizing h j with
  | zero =>
    obtain ⟨ha, hu⟩ := List.getElem?_eq_some_iff.mp hu
    obtain ⟨hb, ht⟩ := List.getElem?_eq_some_iff.mp ht
    rw [iterate, pure_run, Nat.add_zero, ← hu, List.set_getElem_self, ← ht, List.set_getElem_self]
  | succ n ih =>
    have ha : a < h.length := (List.getElem?_eq_some_iff.mp hu).1
    have hb : b < h.length := (List.getElem?_eq_some_iff.mp ht).1
    have hu' : (h.set a (Standard.digest H password salt i (j + 1) ++ rest))[a]? =
        some (Standard.digest H password salt i (j + 1) ++ rest) := List.getElem?_set_self ha
    have ht' : (h.set a (Standard.digest H password salt i (j + 1) ++ rest))[b]? =
        some (Standard.block H password salt i j) := by
      rw [List.getElem?_set_ne hab, ht]
    have hlength : 32 ≤ (Standard.digest H password salt i (j + 1) ++ rest).length := by
      rw [List.length_append, Standard.length_digest]
      exact Nat.le_add_right ..
    have hcombined := combine_run (· ^^^ ·) hab.symm ht' hu'
      (Standard.length_block H password salt i j) hlength
    have hzip : List.zipWith (· ^^^ ·) (Standard.block H password salt i j)
        (Standard.digest H password salt i (j + 1) ++ rest) =
          Standard.block H password salt i (j + 1) := by
      have hsame : (Standard.block H password salt i j).length =
          (Standard.digest H password salt i (j + 1)).length := by
        rw [Standard.length_block, Standard.length_digest]
      rw [← List.append_nil (Standard.block H password salt i j), List.zipWith_append hsame,
        List.zipWith_nil_left, List.append_nil]
      rfl
    rw [hzip] at hcombined
    have hcount : j + 1 + n = j + (n + 1) := by omega
    rw [iterate, bind_run get_run, bind_run (digest_run H spare password salt hu),
      bind_run hcombined, ih (j := j + 1), List.set_comm _ _ hab.symm, List.set_set,
      List.set_set, hcount]
    · rw [List.getElem?_set_ne hab.symm, hu']
    · exact List.getElem?_set_self (by rwa [List.length_set])

variable {values : Bytes}

theorem octets_run (hvalues : h[0]? = some values) (hfour : values.length = 4) (i : Nat) {β : Type}
    (k : BufferM UInt8 β) :
    (do
      assign ⟨some 0, 4⟩ 0 (UInt8.ofNat (i >>> 24))
      assign ⟨some 0, 4⟩ 1 (UInt8.ofNat (i >>> 16))
      assign ⟨some 0, 4⟩ 2 (UInt8.ofNat (i >>> 8))
      assign ⟨some 0, 4⟩ 3 (UInt8.ofNat i)
      k : BufferM UInt8 β) h = k (h.set 0 (Standard.octets i)) := by
  have hzero : 0 < h.length := (List.getElem?_eq_some_iff.mp hvalues).1
  have hstep : ∀ {h' : Arrays UInt8} {current : Bytes} {j : Nat} (value : UInt8)
      {rest : Unit → BufferM UInt8 β}, h'[0]? = some current → current.length = 4 → j < 4 →
        (assign ⟨some 0, 4⟩ j value >>= rest) h' = rest () (h'.set 0 (current.set j value)) := by
    intro h' current j value rest hcurrent hlength hj
    exact bind_run (assign_run hcurrent hj (by omega) value)
  obtain ⟨b₀, b₁, b₂, b₃, rfl⟩ : ∃ b₀ b₁ b₂ b₃, values = [b₀, b₁, b₂, b₃] := by
    match values, hfour with
    | [b₀, b₁, b₂, b₃], _ => exact ⟨b₀, b₁, b₂, b₃, rfl⟩
  rw [hstep _ hvalues rfl (by omega), hstep _ (List.getElem?_set_self hzero) rfl (by omega),
    List.set_set, hstep _ (List.getElem?_set_self hzero) rfl (by omega), List.set_set,
    hstep _ (List.getElem?_set_self hzero) rfl (by omega), List.set_set]
  simp [Standard.octets, Nat.shiftRight_eq_div_pow]

/-- What a block leaves behind. -/
theorem derivedBlock_run (hvalues : h[0]? = some values) (hfour : values.length = 4)
    (iterations i : Nat) :
    ∃ h' t, derivedBlock H spare password salt iterations ⟨some 0, 4⟩ i h = some (t, h') ∧
      Carries h' t (Standard.block H password salt i (iterations - 1)) ∧
        h'[0]? = some (Standard.octets i) ∧ h.length ≤ h'.length ∧
          ∀ k < h.length, k ≠ 0 → h'[k]? = h[k]? := by
  have hzero : 0 < h.length := (List.getElem?_eq_some_iff.mp hvalues).1
  -- The first digest and the combined block have arrays of their own.
  let first := Standard.digest H password salt i 0
  let h₁ := h.set 0 (Standard.octets i)
  let h₂ := h₁ ++ [first ++ spare 32]
  let h₃ := h₂ ++ [List.replicate 32 0]
  have hlength₁ : h₁.length = h.length := List.length_set
  have hlength₂ : h₂.length = h.length + 1 := by
    rw [List.length_append, hlength₁, List.length_singleton]
  have hbuf : h₁[0]? = some (Standard.octets i) := List.getElem?_set_self hzero
  have hsum : append spare .nil (H.mac password (salt ++ elements h₁ ⟨some 0, 4⟩)) h₁ =
      some (⟨some h.length, 32⟩, h₂) := by
    have hmac : H.mac password (salt ++ elements h₁ ⟨some 0, 4⟩) = first := by
      rw [elements_eq hbuf]
      rfl
    have hroom : (backing h₁ .nil).length < Buffer.nil.length + first.length := by
      rw [Standard.length_digest]
      exact Nat.zero_lt_succ 31
    rw [hmac, append_new hroom, hlength₁, Standard.length_digest]
    rfl
  have hu : h₃[h.length]? = some (first ++ spare 32) := by
    rw [List.getElem?_append_left (by omega), ← hlength₁]
    exact List.getElem?_concat_length
  have ht : h₃[h.length + 1]? = some (List.replicate 32 0) := by
    rw [← hlength₂]
    exact List.getElem?_concat_length
  have hcopy : copy ⟨some (h.length + 1), 32⟩ ⟨some h.length, 32⟩ h₃ =
      some ((), h₃.set (h.length + 1) first) := by
    have helements : (elements h₃ ⟨some h.length, 32⟩).take 32 = first := by
      rw [elements_eq hu, List.take_take, Nat.min_self,
        ← Standard.length_digest H password salt i 0,
        List.take_left]
    rw [copy_run ht, helements, Standard.length_digest, List.drop_of_length_le (by simp),
      List.append_nil]
  have hne : h.length ≠ h.length + 1 := Nat.ne_of_lt (Nat.lt_succ_self _)
  have hu' : (h₃.set (h.length + 1) first)[h.length]? = some (first ++ spare 32) := by
    rw [List.getElem?_set_ne hne.symm, hu]
  have ht' : (h₃.set (h.length + 1) first)[h.length + 1]? =
      some (Standard.block H password salt i 0) :=
    List.getElem?_set_self (List.getElem?_eq_some_iff.mp ht).1
  have hiterate := iterate_run H spare password salt hne hu' ht' (iterations - 1)
  rw [Nat.zero_add, List.set_comm _ _ hne.symm, List.set_set] at hiterate
  let h₄ := (h₃.set h.length
    (Standard.digest H password salt i (iterations - 1) ++ spare 32)).set (h.length + 1)
      (Standard.block H password salt i (iterations - 1))
  have hlength₄ : h₄.length = h.length + 2 := by
    rw [List.length_set, List.length_set, List.length_append, hlength₂, List.length_singleton]
  have hblock : h₄[h.length + 1]? =
      some (Standard.block H password salt i (iterations - 1)) :=
    List.getElem?_set_self (by rw [List.length_set]; exact (List.getElem?_eq_some_iff.mp ht).1)
  have hkeep : ∀ k < h.length, h₄[k]? = h₁[k]? := by
    intro k hk
    rw [List.getElem?_set_ne (by omega), List.getElem?_set_ne (by omega),
      List.getElem?_append_left (by omega), List.getElem?_append_left (by omega)]
  refine ⟨h₄, ⟨some (h.length + 1), 32⟩, ?_, ?_, ?_, ?_, ?_⟩
  · rw [derivedBlock, octets_run hvalues hfour, bind_run get_run, bind_run hsum,
      bind_run (alloc_run _), List.length_replicate, hlength₂, bind_run hcopy,
      bind_run hiterate]
    rfl
  · rw [← Standard.length_block H password salt i (iterations - 1)]
    exact carries_of_prefix (by rw [hblock, List.append_nil])
  · rw [hkeep 0 hzero, hbuf]
  · omega
  · intro k hk hk0
    rw [hkeep k hk]
    exact List.getElem?_set_ne hk0.symm

theorem derivedBlocks_run (hvalues : h[0]? = some values) (hfour : values.length = 4)
    {derived : Buffer} {out : Bytes} (hout : Carries h derived out)
    (harray : ∀ a, derived.array = some a → a ≠ 0 ∧ a < h.length) (iterations i n : Nat) :
    ∃ h' derived',
      derivedBlocks H spare password salt iterations ⟨some 0, 4⟩ i n derived h =
        some (derived', h') ∧
      Carries h' derived' (out ++ (List.range n).flatMap fun k =>
        Standard.block H password salt (i + k) (iterations - 1)) := by
  induction n generalizing h values derived out i with
  | zero => exact ⟨h, derived, rfl, by rwa [List.range_zero, List.flatMap_nil, List.append_nil]⟩
  | succ n ih =>
    obtain ⟨h₁, t, hrun, ht, hbuf, hle, hkeep⟩ :=
      derivedBlock_run H spare password salt hvalues hfour iterations i
    have hout₁ : Carries h₁ derived out := hout.congr fun a ha =>
      hkeep a (harray a ha).2 (harray a ha).1
    obtain ⟨derived₂, h₂, happend, hout₂, hle₂, hkeep₂, hplace⟩ :=
      hout₁.append spare (elements h₁ t)
    have hbuf₂ : h₂[0]? = some (Standard.octets i) := by
      rw [hkeep₂ 0 (List.getElem?_eq_some_iff.mp hbuf).1 fun h => (harray 0 h).1 rfl, hbuf]
    have hzero : 0 < h.length := (List.getElem?_eq_some_iff.mp hvalues).1
    have harray₂ : ∀ a, derived₂.array = some a → a ≠ 0 ∧ a < h₂.length := by
      intro a ha
      rcases hplace with hold | ⟨hnew, hlt⟩
      · obtain ⟨hne, hlt⟩ := harray a (by rw [← hold, ha])
        exact ⟨hne, by omega⟩
      · obtain rfl := Option.some.inj (hnew.symm.trans ha)
        exact ⟨by omega, hlt⟩
    obtain ⟨h₃, derived₃, hrest, hout₃⟩ := ih hbuf₂ rfl hout₂ harray₂ (i + 1)
    refine ⟨h₃, derived₃, ?_, ?_⟩
    · rw [derivedBlocks, bind_run hrun, bind_run get_run, bind_run happend, hrest]
    · rw [ht.elements, List.append_assoc] at hout₃
      rw [List.range_succ_eq_map, List.flatMap_cons, List.flatMap_map, Nat.add_zero]
      have hshift : (fun k => Standard.block H password salt (i + 1 + k) (iterations - 1)) =
          fun k => Standard.block H password salt (i + k.succ) (iterations - 1) := by
        funext k
        rw [Nat.add_right_comm, Nat.add_assoc]
      rw [hshift] at hout₃
      exact hout₃

theorem sum_run (key message : Bytes) :
    ∃ block h', append spare .nil (H.mac key message) h = some (block, h') ∧
      Carries h' block (H.mac key message) ∧ block.array = some h.length ∧
        h.length < h'.length ∧ ∀ k < h.length, h'[k]? = h[k]? := by
  obtain ⟨block, h', happend, hblock, -, hkeep, hplace⟩ :=
    (carries_nil (h := h)).append spare (H.mac key message)
  rcases hplace with hold | ⟨hnew, hlt⟩
  · -- The nil slice has no room.
    have hnone : block.array = none := hold
    have helements := congrArg List.length hblock.elements
    rw [List.nil_append, H.length_mac, elements, backing, hnone, Option.bind_none,
      Option.getD_none, List.take_nil] at helements
    cases helements
  · exact ⟨block, h', happend, hblock, hnew, hlt, fun k hk => hkeep k hk fun h => by cases h⟩

/-- The rounds of the expansion append one block after another. -/
theorem expandBlocks_run {prk info : Bytes} {length : Nat} {out block : Buffer} {i : Nat}
    (hout : Carries h out values) (hvalues : values.length = 32 * i)
    (hblock : Carries h block (Standard.expand H prk info i))
    (harray : ∀ a, out.array = some a → a < h.length) {rounds : Nat}
    (hrounds : length ≤ 32 * (i + rounds)) :
    ∃ h' out', expandBlocks H spare prk info length rounds out block (UInt8.ofNat (i + 1)) h =
        some (out', h') ∧
      Carries h' out' (values ++ (List.range ((length + 31) / 32 - i)).flatMap fun k =>
        Standard.expand H prk info (i + 1 + k)) := by
  induction rounds generalizing h out block i values with
  | zero =>
    have hdone : ¬ out.length < length := by
      rw [hout.length, hvalues]
      omega
    have hnone : (length + 31) / 32 - i = 0 := by omega
    refine ⟨h, out, ?_, ?_⟩
    · rw [expandBlocks, if_neg hdone, pure_run]
    · rwa [hnone, List.range_zero, List.flatMap_nil, List.append_nil]
  | succ rounds ih =>
    by_cases hmore : out.length < length
    · obtain ⟨block₁, h₁, hsum, hblock₁, hplace₁, hlt₁, hkeep₁⟩ :=
        sum_run H spare prk (h := h)
          (elements h block ++ info ++ [UInt8.ofNat (i + 1)])
      have hout₁ : Carries h₁ out values := hout.congr fun a ha => hkeep₁ a (harray a ha)
      rw [hblock.elements] at hsum hblock₁
      obtain ⟨out₂, h₂, happend, hout₂, hle₂, hkeep₂, hplace₂⟩ :=
        hout₁.append spare (elements h₁ block₁)
      have hblock₂ : Carries h₂ block₁ (Standard.expand H prk info (i + 1)) := by
        refine hblock₁.congr fun a ha => ?_
        obtain rfl := Option.some.inj (hplace₁.symm.trans ha)
        exact hkeep₂ _ hlt₁ fun h => Nat.lt_irrefl _ (harray _ h)
      have harray₂ : ∀ a, out₂.array = some a → a < h₂.length := by
        intro a ha
        rcases hplace₂ with hold | ⟨hnew, hlt₂⟩
        · have hbound := harray a (by rw [← hold, ha])
          omega
        · obtain rfl := Option.some.inj (hnew.symm.trans ha)
          exact hlt₂
      rw [hblock₁.elements] at happend hout₂
      have hlength₂ : (values ++ Standard.expand H prk info (i + 1)).length = 32 * (i + 1) := by
        rw [List.length_append, hvalues, Standard.length_expand]
        omega
      obtain ⟨h₃, out₃, hrest, hout₃⟩ := ih hout₂ hlength₂ hblock₂ harray₂ (by omega)
      refine ⟨h₃, out₃, ?_, ?_⟩
      · have hcounter : UInt8.ofNat (i + 1) + 1 = UInt8.ofNat (i + 1 + 1) := by
          rw [UInt8.ofNat_add (i + 1) 1]
          rfl
        rw [expandBlocks, if_pos hmore, bind_run get_run, hblock.elements, bind_run hsum,
          bind_run get_run, hblock₁.elements]
        exact (bind_run happend).trans (by rw [hcounter, hrest])
      · have hlength := hout.length
        have hcount : (length + 31) / 32 - i = (length + 31) / 32 - (i + 1) + 1 := by omega
        have hshift : (fun k => Standard.expand H prk info (i + 1 + 1 + k)) =
            fun k => Standard.expand H prk info (i + 1 + k.succ) := by
          funext k
          rw [Nat.add_right_comm, Nat.add_assoc]
        rw [hshift, List.append_assoc] at hout₃
        rw [hcount, List.range_succ_eq_map, List.flatMap_cons, List.flatMap_map, Nat.add_zero]
        exact hout₃
    · have hlength := hout.length
      have hnone : (length + 31) / 32 - i = 0 := by omega
      refine ⟨h, out, ?_, ?_⟩
      · rw [expandBlocks, if_neg hmore, pure_run]
      · rwa [hnone, List.range_zero, List.flatMap_nil, List.append_nil]

end Blocks

/-! ## The standards are met -/

section Standards

open Standard

variable (H : Hmac) (spare : Nat → Bytes)

theorem length_flatMap_blocks (blocks : Nat → Bytes) (hblocks : ∀ i, (blocks (i + 1)).length = 32)
    (n : Nat) : ((List.range n).flatMap fun i => blocks (i + 1)).length = 32 * n := by
  induction n with
  | zero => rfl
  | succ n ih =>
    rw [List.range_succ, List.flatMap_append, List.length_append, ih, List.flatMap_singleton,
      hblocks]
    omega

theorem truncated_take {blocks : Nat → Bytes} (hblocks : ∀ i, (blocks (i + 1)).length = 32)
    {m n : Nat} (hle : m ≤ n) : truncated blocks m = (truncated blocks n).take m := by
  obtain ⟨k, hk⟩ := Nat.exists_eq_add_of_le
    (Nat.div_le_div_right (Nat.add_le_add_right hle 31) : (m + 31) / 32 ≤ (n + 31) / 32)
  rw [truncated, truncated, List.take_take, Nat.min_eq_left hle, hk, List.range_add,
    List.flatMap_append, List.take_append_of_le_length]
  rw [length_flatMap_blocks blocks hblocks]
  omega

theorem reslice_carries {h : Arrays UInt8} {s : Buffer} {values : Bytes} (hs : Carries h s values)
    (length : Nat) (hlength : length ≤ values.length) :
    ∃ out, reslice s length h = some (out, h) ∧ elements h out = values.take length := by
  have helements : (backing h s).take s.length = values := hs.elements
  have hroom : length ≤ (backing h s).length := by
    rw [← helements, List.length_take] at hlength
    omega
  refine ⟨_, if_pos hroom, ?_⟩
  rw [← helements, List.take_take, Nat.min_eq_left (by rw [hs.length]; exact hlength)]
  rfl

theorem cryptoPBKDF2SHA256_eq (password salt : Bytes) {iterations length : Int}
    (hiterations : 1 ≤ iterations) (hlow : 1 ≤ length) (hhigh : length ≤ 2 ^ 20) :
    cryptoPBKDF2SHA256 H spare password salt iterations length =
      some (.ok (pbkdf2 H password salt iterations.toNat length.toNat)) := by
  have hbuf : ([List.replicate 4 0] : Arrays UInt8)[0]? = some (List.replicate 4 0) := rfl
  obtain ⟨h', derived, hrun, hcarries⟩ :=
    derivedBlocks_run H spare password salt hbuf rfl carries_nil
      (fun a h => by cases h) iterations.toNat 1 ((length.toNat + 32 - 1) / 32)
  have hblocks : (fun k => Standard.block H password salt (1 + k) (iterations.toNat - 1)) =
      fun k => Standard.block H password salt (k + 1) (iterations.toNat - 1) := by
    funext k
    rw [Nat.add_comm]
  rw [List.nil_append, hblocks] at hcarries
  have hlength := length_flatMap_blocks
    (fun i => Standard.block H password salt i (iterations.toNat - 1))
    (fun i => length_block H password salt (i + 1) (iterations.toNat - 1))
    ((length.toNat + 32 - 1) / 32)
  obtain ⟨out, hreslice, hout⟩ := reslice_carries hcarries length.toNat (by
    omega)
  have hbody : (do
      let buf ← alloc (List.replicate 4 0)
      let derived ← derivedBlocks H spare password salt iterations.toNat buf 1
        ((length.toNat + 32 - 1) / 32) .nil
      reslice derived length.toNat : BufferM UInt8 Buffer) [] = some (out, h') := by
    rw [bind_run (alloc_run _)]
    exact (bind_run hrun).trans hreslice
  rw [cryptoPBKDF2SHA256, if_neg (by omega), if_neg (by omega)]
  simp only [hbody, hout, Option.bind_eq_bind, Option.bind_some]
  rfl

theorem cryptoHKDFSHA256_eq (ikm salt info : Bytes) {length : Int} (hlow : 1 ≤ length)
    (hhigh : length ≤ 255 * 32) :
    cryptoHKDFSHA256 H spare ikm salt info length =
      some (.ok (hkdf H ikm salt info length.toNat)) := by
  have hempty : Carries ([] : Arrays UInt8) .nil (expand H (extract H salt ikm) info 0) :=
    carries_nil
  obtain ⟨h', out, hrun, hcarries⟩ :=
    expandBlocks_run H spare carries_nil rfl hempty (fun a h => by cases h)
      (show length.toNat ≤ 32 * (0 + length.toNat) by omega)
  have hblocks : (fun k => expand H (extract H salt ikm) info (0 + 1 + k)) =
      fun k => expand H (extract H salt ikm) info (k + 1) := by
    funext k
    rw [Nat.zero_add, Nat.add_comm]
  rw [List.nil_append, hblocks, Nat.sub_zero] at hcarries
  obtain ⟨out', hreslice, hout⟩ := reslice_carries hcarries length.toNat (by
    rw [length_flatMap_blocks (expand H (extract H salt ikm) info) fun i => length_expand H _ _ i]
    omega)
  have hbody : (do
      let out ← expandBlocks H spare (extract H salt ikm) info length.toNat length.toNat .nil .nil 1
      reslice out length.toNat : BufferM UInt8 Buffer) [] = some (out', h') :=
    (bind_run hrun).trans hreslice
  have hsalt : H.mac (if salt.length = 0 then List.replicate 32 0 else salt) ikm =
      extract H salt ikm := by
    simp [extract]
  rw [cryptoHKDFSHA256, if_neg (by omega)]
  simp only [hsalt, hbody, hout, Option.bind_eq_bind, Option.bind_some]
  rfl

/-- The functions compute what the standards define, and a shorter key is the beginning of a
    longer one. -/
theorem key_derivation (H : Hmac) (spare : Nat → Bytes) (password salt info : Bytes) :
    (∀ iterations length : Int, 1 ≤ iterations → 1 ≤ length → length ≤ 2 ^ 20 →
      cryptoPBKDF2SHA256 H spare password salt iterations length =
        some (.ok (pbkdf2 H password salt iterations.toNat length.toNat))) ∧
    (∀ length : Int, 1 ≤ length → length ≤ 255 * 32 →
      cryptoHKDFSHA256 H spare password salt info length =
        some (.ok (hkdf H password salt info length.toNat))) ∧
    (∀ iterations m n : Int, 1 ≤ iterations → 1 ≤ m → m ≤ n → n ≤ 2 ^ 20 →
      ∃ short long, cryptoPBKDF2SHA256 H spare password salt iterations m = some (.ok short) ∧
        cryptoPBKDF2SHA256 H spare password salt iterations n = some (.ok long) ∧
          short = long.take m.toNat) ∧
    ∀ m n : Int, 1 ≤ m → m ≤ n → n ≤ 255 * 32 →
      ∃ short long, cryptoHKDFSHA256 H spare password salt info m = some (.ok short) ∧
        cryptoHKDFSHA256 H spare password salt info n = some (.ok long) ∧
          short = long.take m.toNat := by
  refine ⟨?_, ?_, ?_, ?_⟩
  · intro iterations length hiterations hlow hhigh
    exact cryptoPBKDF2SHA256_eq H spare password salt hiterations hlow hhigh
  · intro length hlow hhigh
    exact cryptoHKDFSHA256_eq H spare password salt info hlow hhigh
  · intro iterations m n hiterations hlow hle hhigh
    refine ⟨_, _, cryptoPBKDF2SHA256_eq H spare password salt hiterations hlow (by omega),
      cryptoPBKDF2SHA256_eq H spare password salt hiterations (by omega) hhigh, ?_⟩
    exact truncated_take (fun i => length_block H password salt (i + 1) _) (by omega)
  · intro m n hlow hle hhigh
    refine ⟨_, _, cryptoHKDFSHA256_eq H spare password salt info hlow (by omega),
      cryptoHKDFSHA256_eq H spare password salt info (by omega) hhigh, ?_⟩
    exact truncated_take (fun i => length_expand H _ _ i) (by omega)

/-- A stand-in for HMAC that adds up the bytes. -/
def demoHmac : Hmac where
  mac key message := List.replicate 32 ((key ++ message).foldl (· + ·) 0)
  length_mac _ _ := List.length_replicate

/-- Keys of one block and of two. -/
theorem demo_keys :
    cryptoPBKDF2SHA256 demoHmac (fun _ => []) [112] [115] 3 40 =
      some (.ok (pbkdf2 demoHmac [112] [115] 3 40)) ∧
    cryptoHKDFSHA256 demoHmac (fun _ => []) [112] [] [105] 33 =
      some (.ok (hkdf demoHmac [112] [] [105] 33)) ∧
    (∃ short long, cryptoPBKDF2SHA256 demoHmac (fun _ => []) [112] [115] 3 7 =
        some (.ok short) ∧
      cryptoPBKDF2SHA256 demoHmac (fun _ => []) [112] [115] 3 40 = some (.ok long) ∧
        short = long.take 7) ∧
    ∃ short long, cryptoHKDFSHA256 demoHmac (fun _ => []) [112] [] [105] 32 = some (.ok short) ∧
      cryptoHKDFSHA256 demoHmac (fun _ => []) [112] [] [105] 33 = some (.ok long) ∧
        short = long.take 32 := by
  obtain ⟨hpbkdf2, -, hprefix, -⟩ := key_derivation demoHmac (fun _ => []) [112] [115] []
  obtain ⟨-, hhkdf, -, hbegins⟩ := key_derivation demoHmac (fun _ => []) [112] [] [105]
  exact ⟨hpbkdf2 3 40 (by decide) (by decide) (by decide), hhkdf 33 (by decide) (by decide),
    hprefix 3 7 40 (by decide) (by decide) (by decide) (by decide),
    hbegins 32 33 (by decide) (by decide) (by decide)⟩

theorem sealed_key (C : SealCipher)
    (hC : ∀ passphrase salt iterations, C.derive passphrase salt iterations =
      pbkdf2 H passphrase salt iterations 32) (passphrase salt : Bytes) (iterations : Nat) :
    cryptoPBKDF2SHA256 H spare passphrase salt iterations 32 =
      some (Kryndel.cryptoPBKDF2SHA256 C passphrase salt iterations) := by
  by_cases hiterations : 1 ≤ iterations
  · rw [cryptoPBKDF2SHA256_eq H spare passphrase salt (by omega) (by decide) (by decide),
      Kryndel.cryptoPBKDF2SHA256_eq_ok.mpr ⟨hiterations, rfl⟩, hC]
    rfl
  · have hzero : iterations = 0 := by omega
    subst hzero
    rfl

end Standards

end Kryndel.KeyDerivation
