import Kryndel.Artifact.RoundTrip

/-!
# Sealed artifacts

An artifact may be wrapped in a container that is opened with a passphrase. The container has a
header of 53 bytes: its magic, the version, the work factor, the salt, the nonce and the length
of the sealed bytes. The header is not sealed, but the key and the nonce are made of it.

The cipher and the key derivation are parameters; what `rand.Read` gives is an argument.
-/

namespace Kryndel

open List

/-- AES-256-GCM, and PBKDF2 for keys of 32 bytes. -/
structure SealCipher where
  derive : (passphrase salt : Bytes) → (iterations : Nat) → Bytes
  sealPlain : (key nonce plain : Bytes) → Bytes
  openSealed : (key nonce ciphertext : Bytes) → Option Bytes
  length_derive : ∀ passphrase salt iterations, (derive passphrase salt iterations).length = 32
  /-- The tag has 16 bytes. -/
  length_seal : ∀ key nonce plain, (sealPlain key nonce plain).length = plain.length + 16
  open_seal : ∀ key nonce plain, openSealed key nonce (sealPlain key nonce plain) = some plain

/-! ## The functions of the source -/

/-- `sealedMagic`. -/
def sealedMagic : Bytes := ascii "KRYSEAL1\x00"

/-- `sealedVersion`. -/
def sealedVersion : UInt32 := 1

/-- `DefaultSealIterations`. -/
def defaultSealIterations : Int := 200000

/-- `MinSealIterations`. -/
def minSealIterations : Nat := 1000

/-- `MaxSealIterations`. -/
def maxSealIterations : Nat := 10000000

/-- `IsSealedArtifact`. -/
def isSealedArtifact (data : Bytes) : Bool :=
  sealedMagic.length ≤ data.length && data.take sealedMagic.length = sealedMagic

/-- A condition that was met, or an error. -/
def required (condition : Bool) (text : String) : Except String Unit :=
  if condition then .ok () else .error text

/-- What was read, or an error. -/
def orError {α : Type} (read : Option α) (text : String) : Except String α :=
  match read with
  | some value => .ok value
  | none => .error text

section Functions

variable (C : SealCipher)

/-- `cryptoPBKDF2SHA256`, for 32 bytes. -/
def cryptoPBKDF2SHA256 (passphrase salt : Bytes) (iterations : Nat) : Except String Bytes := do
  required (1 ≤ iterations) "PBKDF2 iterations must be at least 1"
  return C.derive passphrase salt iterations

/-- `cryptoAESGCMEncrypt`. -/
def cryptoAESGCMEncrypt (key nonce plain : Bytes) : Except String Bytes := do
  required (key.length = 32) "AES-256-GCM key must be 32 bytes"
  required (nonce.length = 12) "AES-GCM nonce must be 12 bytes"
  return C.sealPlain key nonce plain

/-- `cryptoAESGCMDecrypt`. -/
def cryptoAESGCMDecrypt (key nonce ciphertext : Bytes) : Except String Bytes := do
  required (key.length = 32) "AES-256-GCM key must be 32 bytes"
  required (nonce.length = 12) "AES-GCM nonce must be 12 bytes"
  orError (C.openSealed key nonce ciphertext) "AES-GCM authentication failed"

/-- The bytes of a container. -/
def container (iterations : UInt32) (salt nonce ciphertext : Bytes) : Bytes :=
  sealedMagic ++ (writeU32 sealedVersion ++ (writeU32 iterations ++ (salt ++ (nonce ++
    (writeU64 (UInt64.ofNat ciphertext.length) ++ ciphertext)))))

/-- `EncryptArtifact`; `salt` and `nonce` are random bytes. -/
def encryptArtifact (plain passphrase : Bytes) (iterations : Int) (salt nonce : Bytes) :
    Except String Bytes := do
  required (passphrase ≠ []) "encryption requires a non-empty passphrase"
  let iterations := if iterations ≤ 0 then defaultSealIterations else iterations
  required (minSealIterations ≤ iterations && iterations ≤ maxSealIterations)
    "PBKDF2 iteration count out of range"
  let key ← cryptoPBKDF2SHA256 C passphrase salt iterations.toNat
  let ciphertext ← cryptoAESGCMEncrypt C key nonce plain
  return container (UInt32.ofNat iterations.toNat) salt nonce ciphertext

/-- `DecryptArtifact`. -/
def decryptArtifact (data passphrase : Bytes) (lim : CodecLimits) : Except String Bytes := do
  required (isSealedArtifact data) "not a sealed artifact"
  required (data.length ≤ lim.maxArtifactBytes.toInt)
    "sealed artifact exceeds configured input size limit"
  let r := data.drop sealedMagic.length
  let (ver, r) ← orError (readU32 r) "unsupported sealed artifact version"
  required (ver = sealedVersion) "unsupported sealed artifact version"
  let (iterations, r) ← orError (readU32 r) "invalid sealed artifact work factor"
  required (minSealIterations ≤ iterations.toNat && iterations.toNat ≤ maxSealIterations)
    "invalid sealed artifact work factor"
  let (salt, r) ← orError (readFull 16 r) "truncated sealed artifact salt"
  let (nonce, r) ← orError (readFull 12 r) "truncated sealed artifact nonce"
  let (length, r) ← orError (readU64 r) "invalid sealed artifact length"
  required (16 ≤ length && length ≤ UInt64.ofNat r.length) "invalid sealed artifact length"
  let (ciphertext, r) ← orError (readFull length.toNat r) "truncated sealed artifact ciphertext"
  required (r = []) "sealed artifact has trailing bytes"
  required (passphrase ≠ []) "artifact is encrypted; a passphrase is required"
  let key ← cryptoPBKDF2SHA256 C passphrase salt iterations.toNat
  match cryptoAESGCMDecrypt C key nonce ciphertext with
  | .ok plain => return plain
  | .error _ => throw "decryption failed: wrong passphrase or corrupted artifact"

end Functions

/-! ## What is accepted -/

@[simp] theorem required_eq_ok {condition : Bool} {text : String} {u : Unit} :
    required condition text = .ok u ↔ condition = true := by
  cases condition <;> simp [required]

@[simp] theorem orError_eq_ok {α : Type} {read : Option α} {text : String} {a : α} :
    orError read text = .ok a ↔ read = some a := by
  cases read <;> simp [orError]

/-- The parts of a container and what they are opened to. -/
structure Opened (C : SealCipher) (passphrase plain : Bytes) (iterations : UInt32)
    (salt nonce ciphertext : Bytes) : Prop where
  work : minSealIterations ≤ iterations.toNat ∧ iterations.toNat ≤ maxSealIterations
  length_salt : salt.length = 16
  length_nonce : nonce.length = 12
  tag : 16 ≤ ciphertext.length
  opens : C.openSealed (C.derive passphrase salt iterations.toNat) nonce ciphertext = some plain

section Accepted

variable {C : SealCipher} {passphrase plain data : Bytes} {lim : CodecLimits}

@[simp] theorem length_sealedMagic : sealedMagic.length = 9 := by decide

theorem isSealedArtifact_iff : isSealedArtifact data = true ↔ ∃ r, data = sealedMagic ++ r := by
  rw [isSealedArtifact, Bool.and_eq_true, decide_eq_true_eq, decide_eq_true_eq]
  constructor
  · intro h
    refine ⟨data.drop sealedMagic.length, ?_⟩
    have hsplit := take_append_drop sealedMagic.length data
    rw [h.2] at hsplit
    exact hsplit.symm
  · intro h
    obtain ⟨r, rfl⟩ := h
    simp

theorem length_container (iterations : UInt32) {salt nonce : Bytes} (ciphertext : Bytes)
    (hsalt : salt.length = 16) (hnonce : nonce.length = 12) :
    (container iterations salt nonce ciphertext).length = ciphertext.length + 53 := by
  simp only [container, length_append, length_sealedMagic, length_writeU32,
    length_writeU64, hsalt, hnonce]
  omega

theorem toNat_ofNat_length {r : Bytes} (h : r.length < 2 ^ 64) :
    (UInt64.ofNat r.length).toNat = r.length := by
  exact Nat.mod_eq_of_lt h

theorem cryptoPBKDF2SHA256_eq_ok {salt key : Bytes} {iterations : Nat} :
    cryptoPBKDF2SHA256 C passphrase salt iterations = .ok key ↔
      1 ≤ iterations ∧ C.derive passphrase salt iterations = key := by
  simp [cryptoPBKDF2SHA256, bind_eq_ok_iff, pure, Except.pure]

theorem cryptoAESGCMDecrypt_eq_ok {key nonce ciphertext : Bytes} :
    cryptoAESGCMDecrypt C key nonce ciphertext = .ok plain ↔
      key.length = 32 ∧ nonce.length = 12 ∧ C.openSealed key nonce ciphertext = some plain := by
  simp [cryptoAESGCMDecrypt, bind_eq_ok_iff]

/-- What is opened: a container with the length of its sealed bytes, within the limit. -/
theorem decryptArtifact_eq_ok :
    decryptArtifact C data passphrase lim = .ok plain ↔
      data.length ≤ lim.maxArtifactBytes.toInt ∧ passphrase ≠ [] ∧
        ∃ iterations salt nonce ciphertext,
          data = container iterations salt nonce ciphertext ∧
            Opened C passphrase plain iterations salt nonce ciphertext := by
  constructor
  · intro h
    simp only [decryptArtifact, bind_eq_ok_iff, required_eq_ok, orError_eq_ok,
      decide_eq_true_eq, Bool.and_eq_true] at h
    obtain ⟨-, hmagic, -, hsize, ⟨ver, r₁⟩, hver, -, hversion, ⟨iterations, r₂⟩, hiterations, -,
      hwork, ⟨salt, r₃⟩, hsalt, ⟨nonce, r₄⟩, hnonce, ⟨length, r₅⟩, hlength, -, hbounds,
      ⟨ciphertext, r₆⟩, hciphertext, -, hend, -, hpassphrase, key, hkey, h⟩ := h
    obtain ⟨r, rfl⟩ := isSealedArtifact_iff.mp hmagic
    rw [drop_left] at hver
    simp only at hversion hiterations hwork hsalt hnonce hlength hbounds hciphertext hend hkey h
    subst hversion hend
    -- No part of the header was cut short, for something follows it.
    obtain ⟨rfl, hsixteen, hne₂⟩ := readFull_eq_some.mp hsalt
    obtain ⟨rfl, htwelve, hne₃⟩ := readFull_eq_some.mp hnonce
    obtain ⟨rfl, hall, hne₅⟩ := readFull_eq_some.mp hciphertext
    rw [append_nil] at *
    rw [readU64_eq_some hne₅] at hlength
    rw [readU32_eq_some hne₂] at hiterations
    have hne₁ : r₁ ≠ [] := by
      rw [hiterations]
      simp
    rw [readU32_eq_some hne₁] at hver
    have hfield : length = UInt64.ofNat ciphertext.length := by
      rw [hall, UInt64.ofNat_toNat]
    refine ⟨hsize, hpassphrase, iterations, salt, nonce, ciphertext, ?_, hwork, hsixteen, htwelve,
      ?_, ?_⟩
    · rw [container, hver, hiterations, hlength, hfield]
    · rw [hall]
      exact UInt64.le_iff_toNat_le.mp hbounds.1
    · split at h
      · next opened hopened =>
        cases h
        rw [(cryptoPBKDF2SHA256_eq_ok.mp hkey).2]
        exact (cryptoAESGCMDecrypt_eq_ok.mp hopened).2.2
      · cases h
  · intro h
    obtain ⟨hsize, hpassphrase, iterations, salt, nonce, ciphertext, rfl, hopened⟩ := h
    have hlt := lim.maxArtifactBytes.toInt_lt
    have hcontainer := length_container iterations ciphertext hopened.length_salt
      hopened.length_nonce
    have hfits : ciphertext.length < 2 ^ 64 := by
      omega
    have hlength := toNat_ofNat_length hfits
    have htag := hopened.tag
    have hne : ciphertext ≠ [] := by
      rintro rfl
      simp at htag
    have hdrop : (container iterations salt nonce ciphertext).drop sealedMagic.length =
        writeU32 sealedVersion ++ (writeU32 iterations ++ (salt ++ (nonce ++
          (writeU64 (UInt64.ofNat ciphertext.length) ++ ciphertext)))) := drop_left
    simp only [decryptArtifact, bind_eq_ok_iff, required_eq_ok, orError_eq_ok,
      decide_eq_true_eq, Bool.and_eq_true, hdrop]
    refine ⟨(), isSealedArtifact_iff.mpr ⟨_, rfl⟩, (), hsize, _, readU32_write _, (), rfl, _,
      readU32_write _, (), hopened.work, (salt, _), readFull_eq_some.mpr ⟨rfl, ?_, by simp⟩,
      (nonce, _), readFull_eq_some.mpr ⟨rfl, ?_, by simp⟩, _, readU64_write _, (), ?_,
      (ciphertext, []), readFull_eq_some.mpr ⟨by simp, ?_, hne⟩, (), rfl, (), hpassphrase, _,
      cryptoPBKDF2SHA256_eq_ok.mpr ⟨?_, rfl⟩, ?_⟩
    · exact hopened.length_salt
    · exact hopened.length_nonce
    · refine ⟨?_, Nat.le_refl _⟩
      rw [UInt64.le_iff_toNat_le, hlength]
      exact htag
    · exact hlength.symm
    · have hmin : 1000 ≤ iterations.toNat := hopened.work.1
      show 1 ≤ iterations.toNat
      omega
    · rw [cryptoAESGCMDecrypt_eq_ok.mpr
        ⟨C.length_derive _ _ _, hopened.length_nonce, hopened.opens⟩]
      rfl

/-- The work factor that is used. -/
def workFactor (iterations : Int) : Nat :=
  (if iterations ≤ 0 then defaultSealIterations else iterations).toNat

/-- The work factors that may be asked for; for one that is not positive the default is used. -/
def WorkAccepted (iterations : Int) : Prop :=
  iterations ≤ 0 ∨ minSealIterations ≤ iterations ∧ iterations ≤ maxSealIterations

theorem workFactor_bounds {iterations : Int} (h : WorkAccepted iterations) :
    minSealIterations ≤ workFactor iterations ∧ workFactor iterations ≤ maxSealIterations := by
  unfold WorkAccepted minSealIterations maxSealIterations at *
  unfold workFactor defaultSealIterations
  split <;> omega

theorem encryptArtifact_eq {iterations : Int} {salt nonce : Bytes} (hpassphrase : passphrase ≠ [])
    (hwork : WorkAccepted iterations) (hnonce : nonce.length = 12) :
    encryptArtifact C plain passphrase iterations salt nonce =
      .ok (container (UInt32.ofNat (workFactor iterations)) salt nonce
        (C.sealPlain (C.derive passphrase salt (workFactor iterations)) nonce plain)) := by
  have hbounds := workFactor_bounds hwork
  have hrange :
      (minSealIterations ≤ (if iterations ≤ 0 then defaultSealIterations else iterations) ∧
      (if iterations ≤ 0 then defaultSealIterations else iterations) ≤ maxSealIterations) := by
    unfold WorkAccepted at hwork
    unfold minSealIterations maxSealIterations at *
    unfold defaultSealIterations
    split <;> omega
  have hmin : 1000 ≤ workFactor iterations := hbounds.1
  simp only [encryptArtifact, bind_eq_ok_iff, required_eq_ok, decide_eq_true_eq, Bool.and_eq_true,
    cryptoPBKDF2SHA256_eq_ok, cryptoAESGCMEncrypt]
  refine ⟨(), hpassphrase, (), hrange, _, ⟨?_, rfl⟩, _, ⟨(), C.length_derive _ _ _, (), hnonce,
    rfl⟩, rfl⟩
  show 1 ≤ workFactor iterations
  omega

end Accepted

/-! ## Containers that are refused -/

/-- The header of a container: all but the sealed bytes. -/
def headerLength : Nat := 53

/-- The sealed bytes are opened with one key and one nonce only, and the key was derived from
    one salt and one work factor. -/
structure HeaderBound (C : SealCipher) (passphrase salt nonce ciphertext : Bytes)
    (iterations : Nat) : Prop where
  derived : ∀ salt' iterations', salt'.length = 16 → iterations' ≤ maxSealIterations →
    C.derive passphrase salt' iterations' = C.derive passphrase salt iterations →
      salt' = salt ∧ iterations' = iterations
  opened : ∀ key' nonce' plain', C.openSealed key' nonce' ciphertext = some plain' →
    key' = C.derive passphrase salt iterations ∧ nonce' = nonce

section Refused

variable {C : SealCipher} {salt nonce ciphertext data : Bytes} {iterations : UInt32}

/-- The header of a container, which has the length of what follows in it. -/
def containerHeader (iterations : UInt32) (salt nonce : Bytes) (length : Nat) : Bytes :=
  sealedMagic ++ (writeU32 sealedVersion ++ (writeU32 iterations ++ (salt ++ (nonce ++
    writeU64 (UInt64.ofNat length)))))

theorem container_eq (iterations : UInt32) (salt nonce ciphertext : Bytes) :
    container iterations salt nonce ciphertext =
      containerHeader iterations salt nonce ciphertext.length ++ ciphertext := by
  simp [container, containerHeader]

theorem length_containerHeader (iterations : UInt32) (hsalt : salt.length = 16)
    (hnonce : nonce.length = 12) (n : Nat) :
    (containerHeader iterations salt nonce n).length = headerLength := by
  simp [containerHeader, hsalt, hnonce, headerLength]

theorem containerHeader_inj {iterations' : UInt32} {salt' nonce' : Bytes} {n n' : Nat}
    (hsalt : salt.length = 16) (hnonce : nonce.length = 12) (hsalt' : salt'.length = 16)
    (hnonce' : nonce'.length = 12) (hn : n < 2 ^ 64) (hn' : n' < 2 ^ 64)
    (h : containerHeader iterations salt nonce n = containerHeader iterations' salt' nonce' n') :
    n = n' := by
  have h₁ := append_cancel_left h
  have h₂ := append_cancel_left h₁
  obtain ⟨-, h₃⟩ := append_inj h₂ (by simp)
  obtain ⟨-, h₄⟩ := append_inj h₃ (by rw [hsalt, hsalt'])
  obtain ⟨-, h₅⟩ := append_inj h₄ (by rw [hnonce, hnonce'])
  have hread := congrArg readU64 (congrArg (· ++ []) h₅)
  simp only [readU64_write, Option.some.injEq, Prod.mk.injEq, and_true] at hread
  have hnat := congrArg UInt64.toNat hread
  rwa [UInt64.toNat_ofNat', UInt64.toNat_ofNat', Nat.mod_eq_of_lt hn, Nat.mod_eq_of_lt hn'] at hnat

/-- The length in the header tells where a container ends: no container is a proper prefix of
    another one. -/
theorem container_not_extended {iterations' : UInt32} {salt' nonce' ciphertext' : Bytes}
    (hsalt : salt.length = 16) (hnonce : nonce.length = 12) (hsalt' : salt'.length = 16)
    (hnonce' : nonce'.length = 12) (hn : ciphertext.length < 2 ^ 64)
    (hn' : ciphertext'.length < 2 ^ 64)
    (h : container iterations salt nonce ciphertext <+:
      container iterations' salt' nonce' ciphertext') :
    container iterations salt nonce ciphertext =
      container iterations' salt' nonce' ciphertext' := by
  obtain ⟨rest, hrest⟩ := h
  rw [container_eq, container_eq, append_assoc] at hrest
  obtain ⟨hheader, htail⟩ := append_inj hrest (by
    rw [length_containerHeader _ hsalt hnonce, length_containerHeader _ hsalt' hnonce'])
  have hlength := containerHeader_inj hsalt hnonce hsalt' hnonce' hn hn' hheader
  have hnone : rest = [] := by
    have hsum := congrArg List.length htail
    rw [length_append] at hsum
    exact length_eq_zero_iff.mp (by omega)
  rw [hnone, append_nil] at htail
  rw [container_eq, container_eq, hheader, htail]

theorem ciphertext_fits {lim : CodecLimits} (hsalt : salt.length = 16)
    (hnonce : nonce.length = 12)
    (hsize : (container iterations salt nonce ciphertext).length ≤ lim.maxArtifactBytes.toInt) :
    ciphertext.length < 2 ^ 64 := by
  have hlt := lim.maxArtifactBytes.toInt_lt
  rw [length_container _ _ hsalt hnonce] at hsize
  omega

theorem decodeArtifact_container {Tree : Type} {T : Toolchain Tree} {lim : CodecLimits}
    {a : Artifact} {rest : Bytes}
    (h : data <+: sealedMagic ++ rest ∨ sealedMagic ++ rest <+: data) :
    decodeArtifact T data lim ≠ .ok a := by
  intro hok
  obtain ⟨hdata, -, -⟩ := decodeArtifact_eq_ok.mp hok
  have hstart : ∃ tail, data = a.formatVersion.magic ++ tail := ⟨_, hdata⟩
  obtain ⟨tail, rfl⟩ := hstart
  have hmagic : a.formatVersion.magic.take 4 ≠ sealedMagic.take 4 := by
    cases a.formatVersion <;> decide
  have hfour : (a.formatVersion.magic ++ tail).take 4 = a.formatVersion.magic.take 4 :=
    take_append_of_le_length (by rw [length_magic]; omega)
  have hfour' : (sealedMagic ++ rest).take 4 = sealedMagic.take 4 :=
    take_append_of_le_length (by rw [length_sealedMagic]; omega)
  rcases h with h | h
  · obtain ⟨more, hmore⟩ := h
    have htake := congrArg (List.take 4) hmore
    rw [append_assoc, hfour', take_append_of_le_length (by rw [length_magic]; omega)]
      at htake
    exact hmagic htake
  · obtain ⟨more, hmore⟩ := h
    have htake := congrArg (List.take 4) hmore
    rw [append_assoc, hfour, take_append_of_le_length (by rw [length_sealedMagic]; omega)]
      at htake
    exact hmagic htake.symm

end Refused

/-- An artifact that the decoder accepts under a limit is sealed with every passphrase that is
    not empty, and opened again under the limit if there is room for the 69 bytes around it.
    Nothing that is cut off from the container or added to it is opened, nor is it an artifact;
    and where the sealed bytes are bound to their key, no other header opens them. -/
theorem sealed_container {Tree : Type} {T : Toolchain Tree} {C : SealCipher} {lim : CodecLimits}
    {a : Artifact} {plain passphrase salt nonce : Bytes} {iterations : Int}
    (haccepted : decodeArtifact T plain lim = .ok a) (hpassphrase : passphrase ≠ [])
    (hwork : WorkAccepted iterations) (hsalt : salt.length = 16) (hnonce : nonce.length = 12) :
    ∃ sealed, encryptArtifact C plain passphrase iterations salt nonce = .ok sealed ∧
      decryptArtifact C sealed passphrase lim =
        (if (plain.length + 69 : Int) ≤ lim.maxArtifactBytes.toInt then .ok plain
          else .error "sealed artifact exceeds configured input size limit") ∧
      (∀ data, data <+: sealed ∨ sealed <+: data →
        (∀ lim' b, decodeArtifact T data lim' ≠ .ok b) ∧
        (data ≠ sealed → ∀ passphrase' lim' out,
          decryptArtifact C data passphrase' lim' ≠ .ok out)) ∧
      (HeaderBound C passphrase salt nonce (sealed.drop headerLength) (workFactor iterations) →
        ∀ header, header.length = headerLength → header ≠ sealed.take headerLength →
          ∀ lim' out,
            decryptArtifact C (header ++ sealed.drop headerLength) passphrase lim' ≠ .ok out) := by
  have hbounds := workFactor_bounds hwork
  have hfactor : (UInt32.ofNat (workFactor iterations)).toNat = workFactor iterations := by
    have hmax : workFactor iterations ≤ 10000000 := hbounds.2
    rw [UInt32.toNat_ofNat']
    exact Nat.mod_eq_of_lt (by omega)
  have hplain : (plain.length : Int) ≤ lim.maxArtifactBytes.toInt := by
    obtain ⟨hdata, -, hwithin⟩ := decodeArtifact_eq_ok.mp haccepted
    rw [hdata]
    exact hwithin.size
  have hlt := lim.maxArtifactBytes.toInt_lt
  have hcipher := C.length_seal (C.derive passphrase salt (workFactor iterations)) nonce plain
  have hfits : (C.sealPlain (C.derive passphrase salt (workFactor iterations)) nonce plain).length <
      2 ^ 64 := by
    omega
  refine ⟨_, encryptArtifact_eq hpassphrase hwork hnonce, ?_, ?_, ?_⟩
  · have hlength := length_container (UInt32.ofNat (workFactor iterations))
      (C.sealPlain (C.derive passphrase salt (workFactor iterations)) nonce plain) hsalt hnonce
    split
    · next hroom =>
      refine decryptArtifact_eq_ok.mpr ⟨?_, hpassphrase, _, _, _, _, rfl, ?_, hsalt, hnonce, ?_, ?_⟩
      · rw [hlength]
        omega
      · rw [hfactor]
        exact hbounds
      · omega
      · rw [hfactor]
        exact C.open_seal _ _ _
    · next hroom =>
      have hmagic : isSealedArtifact (container (UInt32.ofNat (workFactor iterations)) salt nonce
          (C.sealPlain (C.derive passphrase salt (workFactor iterations)) nonce plain)) = true :=
        isSealedArtifact_iff.mpr ⟨_, rfl⟩
      have hlong : ¬ ((container (UInt32.ofNat (workFactor iterations)) salt nonce
          (C.sealPlain (C.derive passphrase salt (workFactor iterations)) nonce plain)).length :
          Int) ≤ lim.maxArtifactBytes.toInt := by
        rw [hlength]
        omega
      rw [decryptArtifact, (required_eq_ok (u := ())).mpr hmagic]
      simp only [required, hlong]
      rfl
  · intro data h
    refine ⟨fun lim' b => decodeArtifact_container h, ?_⟩
    intro hne passphrase' lim' out hok
    obtain ⟨hsize, -, it, salt', nonce', ciphertext', rfl, hopened⟩ := decryptArtifact_eq_ok.mp hok
    have hfits' := ciphertext_fits hopened.length_salt hopened.length_nonce hsize
    rcases h with h | h
    · exact hne (container_not_extended hopened.length_salt hopened.length_nonce hsalt hnonce hfits'
        hfits h)
    · exact hne (container_not_extended hsalt hnonce hopened.length_salt hopened.length_nonce hfits
        hfits' h).symm
  · intro hbound header hheader hne lim' out hok
    have hlen := length_containerHeader (UInt32.ofNat (workFactor iterations)) hsalt hnonce
      (C.sealPlain (C.derive passphrase salt (workFactor iterations)) nonce plain).length
    rw [container_eq, ← hlen, drop_left] at hbound hok
    rw [container_eq, ← hlen, take_left] at hne
    obtain ⟨hsize, -, it, salt', nonce', ciphertext', hdata, hopened⟩ :=
      decryptArtifact_eq_ok.mp hok
    rw [container_eq] at hdata
    obtain ⟨rfl, rfl⟩ := append_inj hdata (by
      rw [hheader, length_containerHeader _ hopened.length_salt hopened.length_nonce])
    obtain ⟨hkey, rfl⟩ := hbound.opened _ _ _ hopened.opens
    obtain ⟨rfl, hit⟩ := hbound.derived _ _ hopened.length_salt hopened.work.2 hkey
    apply hne
    rw [← hit, UInt32.ofNat_toNat]

/-! ## A cipher that is bound to its header -/

/-- The key holds the salt and the work factor; the tag marks one key and one nonce. -/
def markedCipher (key₀ nonce₀ : Bytes) : SealCipher where
  derive _ salt iterations :=
    (salt ++ (writeU32 (UInt32.ofNat iterations) ++ List.replicate 32 0)).take 32
  sealPlain key nonce plain :=
    plain ++ List.replicate 16 (if key = key₀ ∧ nonce = nonce₀ then 1 else 0)
  openSealed key nonce ciphertext :=
    if ciphertext.drop (ciphertext.length - 16) =
        List.replicate 16 (if key = key₀ ∧ nonce = nonce₀ then 1 else 0) then
      some (ciphertext.take (ciphertext.length - 16))
    else none
  length_derive _ salt iterations := by simp
  length_seal key nonce plain := by simp
  open_seal key nonce plain := by simp

theorem markedCipher_bound (passphrase plain : Bytes) {salt nonce key : Bytes} {iterations : Nat}
    (hsalt : salt.length = 16) (hmax : iterations ≤ maxSealIterations)
    (hkey : (markedCipher key nonce).derive passphrase salt iterations = key) :
    HeaderBound (markedCipher key nonce) passphrase salt nonce
      ((markedCipher key nonce).sealPlain key nonce plain) iterations where
  derived salt' iterations' hsalt' hmax' h := by
    have htake : ∀ {s : Bytes} (n : Nat), s.length = 16 →
        (s ++ (writeU32 (UInt32.ofNat n) ++ List.replicate 32 0)).take 32 =
          s ++ (writeU32 (UInt32.ofNat n) ++ List.replicate 12 0) := by
      intro s n hs
      rw [take_append, take_append, hs, length_writeU32,
        take_of_length_le (by omega),
        take_of_length_le (by rw [length_writeU32]; omega), take_replicate]
      rfl
    simp only [markedCipher, htake _ hsalt, htake _ hsalt'] at h
    obtain ⟨rfl, hrest⟩ := append_inj h (by rw [hsalt, hsalt'])
    have hread := congrArg readU32 hrest
    simp only [readU32_write, Option.some.injEq, Prod.mk.injEq, and_true] at hread
    have hnat := congrArg UInt32.toNat hread
    unfold maxSealIterations at hmax hmax'
    rw [UInt32.toNat_ofNat', UInt32.toNat_ofNat', Nat.mod_eq_of_lt (by omega),
      Nat.mod_eq_of_lt (by omega)] at hnat
    exact ⟨rfl, hnat⟩
  opened key' nonce' plain' h := by
    rw [hkey]
    by_contra hother
    rw [markedCipher] at h
    simp [hother] at h

/-- The artifact of the program `x`. -/
def sealedExample : Bytes :=
  writeArtifact plainToolchain [entryOf "<root>" "x"] (ascii "{}")

/-- A salt, a nonce and the key that is made of the salt. -/
def exampleSalt : Bytes := List.replicate 16 7
def exampleNonce : Bytes := List.replicate 12 9
def exampleKey : Bytes :=
  (exampleSalt ++ (writeU32 200000 ++ List.replicate 32 0)).take 32

theorem exampleKey_eq : (markedCipher exampleKey exampleNonce).derive (ascii "pw") exampleSalt
    (workFactor 0) = exampleKey := by
  decide

/-- The limit on an artifact is also one on its container: an artifact of just that length is
    sealed, but not opened again. Without a passphrase nothing is sealed. -/
theorem tight_container_refused :
    (∃ a, decodeArtifact plainToolchain sealedExample
        { maxArtifactBytes := Int64.ofNat sealedExample.length } = .ok a) ∧
      (∃ sealed, encryptArtifact (markedCipher exampleKey exampleNonce) sealedExample (ascii "pw") 0
          exampleSalt exampleNonce = .ok sealed ∧
        ∀ out, decryptArtifact (markedCipher exampleKey exampleNonce) sealed (ascii "pw")
          { maxArtifactBytes := Int64.ofNat sealedExample.length } ≠ .ok out) ∧
      ∀ sealed, encryptArtifact (markedCipher exampleKey exampleNonce) sealedExample [] 0
        exampleSalt exampleNonce ≠ .ok sealed := by
  have hlength : sealedExample.length = 190 := by decide +kernel
  refine ⟨⟨builtArtifact [entryOf "<root>" "x"] (ascii "{}"), by decide +kernel⟩,
    ⟨_, encryptArtifact_eq (by decide +kernel) (.inl (Int.le_refl 0)) (by decide +kernel), ?_⟩, ?_⟩
  · intro out h
    obtain ⟨hsize, -⟩ := decryptArtifact_eq_ok.mp h
    rw [length_container _ _ (by decide) (by decide),
      (markedCipher exampleKey exampleNonce).length_seal, hlength] at hsize
    revert hsize
    decide
  · intro sealed h
    simp [encryptArtifact, required, bind, Except.bind] at h

/-- The program `x` in a container with the default work factor. -/
theorem sealedExample_opened :
    ∃ sealed, encryptArtifact (markedCipher exampleKey exampleNonce) sealedExample (ascii "pw") 0
        exampleSalt exampleNonce = .ok sealed ∧
      decryptArtifact (markedCipher exampleKey exampleNonce) sealed (ascii "pw") {} =
        .ok sealedExample ∧
      ∀ header, header.length = headerLength → header ≠ sealed.take headerLength →
        ∀ lim out, decryptArtifact (markedCipher exampleKey exampleNonce)
          (header ++ sealed.drop headerLength) (ascii "pw") lim ≠ .ok out := by
  have haccepted : decodeArtifact plainToolchain sealedExample {} =
      .ok (builtArtifact [entryOf "<root>" "x"] (ascii "{}")) := by
    decide +kernel
  have hsalt : exampleSalt.length = 16 := by decide +kernel
  have hnonce : exampleNonce.length = 12 := by decide +kernel
  have hpassphrase : ascii "pw" ≠ [] := by decide
  obtain ⟨sealed, hsealed, hopened, -, hheader⟩ :=
    sealed_container (C := markedCipher exampleKey exampleNonce) haccepted hpassphrase
      (.inl (Int.le_refl 0)) hsalt hnonce
  refine ⟨sealed, hsealed, ?_, hheader ?_⟩
  · rw [hopened]
    decide +kernel
  · rw [encryptArtifact_eq hpassphrase (.inl (Int.le_refl 0)) hnonce] at hsealed
    rw [← Except.ok.inj hsealed, container_eq, ← length_containerHeader
      (UInt32.ofNat (workFactor 0)) hsalt hnonce, drop_left, exampleKey_eq]
    exact markedCipher_bound _ _ hsalt (by decide) exampleKey_eq

end Kryndel
