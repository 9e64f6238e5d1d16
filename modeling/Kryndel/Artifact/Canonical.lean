import Kryndel.Artifact.Codec

/-!
# What the artifact decoder accepts

Every part of `DecodeArtifact` has a lemma that says of which byte strings it accepts what:
the part as the encoder writes it, in front of the rest. Together they say what the decoder
accepts (`decodeArtifact_eq_ok`): the bytes of the artifact it returns, in the format version
that the artifact itself shows, and nothing else.
-/

namespace Kryndel

open List Option

open Wire (littleEndian ofLittleEndian)

/-! ## Readers -/

section Readers

variable {s b r : Bytes}

variable {n : Nat}

theorem readBytes_eq_some :
    readBytes n s = some (b, r) ↔ s ≠ [] ∧ s.take n = b ∧ s.drop n = r := by
  by_cases hs : s = [] <;> simp [readBytes, hs]

@[simp] theorem readBytes_append (hs : b ++ r ≠ []) :
    readBytes b.length (b ++ r) = some (b, r) := by
  rw [readBytes_eq_some]
  exact ⟨hs, by simp, by simp⟩

theorem readFull_eq_some :
    readFull n s = some (b, r) ↔ s = b ++ r ∧ b.length = n ∧ s ≠ [] := by
  rw [readFull, filter_eq_some_iff, readBytes_eq_some]
  constructor
  · intro h
    obtain ⟨⟨hs, rfl, rfl⟩, hlength⟩ := h
    exact ⟨(take_append_drop n s).symm, by simpa using hlength, hs⟩
  · intro h
    obtain ⟨rfl, rfl, hs⟩ := h
    exact ⟨⟨hs, by simp, by simp⟩, by simp⟩

theorem eq_littleEndian_append (h : readBytes n s = some (b, r)) (hr : r ≠ []) :
    s = littleEndian n (ofLittleEndian b) ++ r := by
  obtain ⟨hs, rfl, rfl⟩ := readBytes_eq_some.mp h
  have hlength : (s.take n).length = n := by
    have hdrop : n < s.length := by simpa using hr
    rw [length_take]
    omega
  have hbytes := Wire.littleEndian_ofLittleEndian (s.take n)
  rw [hlength] at hbytes
  rw [hbytes, take_append_drop]

@[simp] theorem length_writeU32 (x : UInt32) : (writeU32 x).length = 4 := by
  simp [writeU32]

@[simp] theorem length_writeU64 (x : UInt64) : (writeU64 x).length = 8 := by
  simp [writeU64]

@[simp] theorem length_writeString : (writeString s).length = 8 + s.length := by
  simp [writeString]

@[simp] theorem writeU32_ne_nil (x : UInt32) : writeU32 x ≠ [] := by
  intro hnil
  simpa using congrArg List.length hnil

@[simp] theorem writeU64_ne_nil (x : UInt64) : writeU64 x ≠ [] := by
  intro hnil
  simpa using congrArg List.length hnil

@[simp] theorem writeString_ne_nil : writeString s ≠ [] := by
  simp [writeString]

theorem length_lt_of_append (h : (b ++ r).length < n) : r.length < n := by
  rw [length_append] at h
  omega

@[simp] theorem readU32_write (x : UInt32) : readU32 (writeU32 x ++ r) = some (x, r) := by
  have hread : readBytes 4 (writeU32 x ++ r) = some (writeU32 x, r) := by
    have h : writeU32 x ++ r ≠ [] := by simp
    simpa using readBytes_append h
  have hvalue : ofLittleEndian (writeU32 x) = x.toNat := by
    rw [writeU32, Wire.ofLittleEndian_littleEndian]
    exact Nat.mod_eq_of_lt x.toNat_lt
  simp [readU32, hread, hvalue]

@[simp] theorem readU64_write (x : UInt64) : readU64 (writeU64 x ++ r) = some (x, r) := by
  have hread : readBytes 8 (writeU64 x ++ r) = some (writeU64 x, r) := by
    have h : writeU64 x ++ r ≠ [] := by simp
    simpa using readBytes_append h
  have hvalue : ofLittleEndian (writeU64 x) = x.toNat := by
    rw [writeU64, Wire.ofLittleEndian_littleEndian]
    exact Nat.mod_eq_of_lt x.toNat_lt
  simp [readU64, hread, hvalue]

theorem readU32_eq_some (hr : r ≠ []) {x : UInt32} :
    readU32 s = some (x, r) ↔ s = writeU32 x ++ r := by
  constructor
  · intro h
    obtain ⟨⟨b, r'⟩, hread, hx⟩ := map_eq_some_iff.mp h
    obtain ⟨rfl, rfl⟩ := Prod.mk.inj hx
    rw [writeU32, UInt32.toNat_ofNat']
    rw [show 2 ^ 32 = 256 ^ 4 from rfl, Wire.littleEndian_mod]
    exact eq_littleEndian_append hread hr
  · intro h
    rw [h, readU32_write]

theorem readU64_eq_some (hr : r ≠ []) {x : UInt64} :
    readU64 s = some (x, r) ↔ s = writeU64 x ++ r := by
  constructor
  · intro h
    obtain ⟨⟨b, r'⟩, hread, hx⟩ := map_eq_some_iff.mp h
    obtain ⟨rfl, rfl⟩ := Prod.mk.inj hx
    rw [writeU64, UInt64.toNat_ofNat']
    rw [show 2 ^ 64 = 256 ^ 8 from rfl, Wire.littleEndian_mod]
    exact eq_littleEndian_append hread hr
  · intro h
    rw [h, readU64_write]

theorem readString_eq_some {max : Int64} (hs : s.length < 2 ^ 64) :
    readString max s = some (b, r) ↔
      s = writeString b ++ r ∧ b.length ≤ max.toUInt64.toNat ∧ b ++ r ≠ [] := by
  constructor
  · intro h
    obtain ⟨⟨n, r'⟩, hn, hrest⟩ := bind_eq_some_iff.mp h
    dsimp only at hrest
    split at hrest
    case isTrue => simp at hrest
    case isFalse hguard =>
      obtain ⟨hr', hb, hr⟩ := readBytes_eq_some.mp hrest
      have hwhole := (readU64_eq_some hr').mp hn
      have hshort : r'.length < 2 ^ 64 := by
        rw [hwhole] at hs
        simp at hs
        omega
      simp only [Bool.or_eq_true, decide_eq_true_eq, not_or, UInt64.lt_iff_toNat_lt,
        UInt64.toNat_ofNat', Nat.mod_eq_of_lt hshort, not_lt] at hguard
      have hlength : b.length = n.toNat := by
        rw [← hb, length_take]
        omega
      refine ⟨?_, ?_, ?_⟩
      · rw [writeString, hlength, UInt64.ofNat_toNat, hwhole, append_assoc, ← hb, ← hr,
          take_append_drop]
      · rw [hlength]
        exact hguard.1
      · rw [← hb, ← hr, take_append_drop]
        exact hr'
  · intro h
    obtain ⟨rfl, hmax, hne⟩ := h
    have hsmall : b.length + r.length < 2 ^ 64 := by
      simp at hs
      omega
    have hlength : (UInt64.ofNat b.length).toNat = b.length := by
      exact Nat.mod_eq_of_lt (by omega)
    rw [writeString, append_assoc, readString, readU64_write]
    simp only [bind_eq_bind, bind_some, UInt64.lt_iff_toNat_lt, hlength]
    rw [if_neg]
    · exact readBytes_append hne
    · simp only [UInt64.toNat_ofNat', length_append, Nat.mod_eq_of_lt hsmall,
        Bool.or_eq_true, decide_eq_true_eq, not_or, not_lt]
      omega

theorem readSize_eq_some {max : Int64} {size : UInt64} (hs : s.length < 2 ^ 64) :
    readSize max s = some (size, r) ↔
      s = writeU64 size ++ r ∧ size.toNat ≤ max.toUInt64.toNat ∧ 32 + size.toNat ≤ r.length := by
  constructor
  · intro h
    obtain ⟨⟨n, r'⟩, hn, hrest⟩ := bind_eq_some_iff.mp h
    dsimp only at hrest
    split at hrest
    case isTrue => simp at hrest
    case isFalse hguard =>
      simp only [Option.some.injEq, Prod.mk.injEq] at hrest
      obtain ⟨rfl, rfl⟩ := hrest
      have hshort : r'.length < 2 ^ 64 := by
        obtain ⟨p, hp, hx⟩ := map_eq_some_iff.mp hn
        obtain ⟨-, -, hdrop⟩ := readBytes_eq_some.mp hp
        obtain ⟨-, rfl⟩ := Prod.mk.inj hx
        rw [← hdrop, length_drop]
        omega
      have hsmall : (UInt64.ofNat r'.length).toNat = r'.length := by
        exact Nat.mod_eq_of_lt hshort
      simp only [Bool.or_eq_true, decide_eq_true_eq, not_or, UInt64.lt_iff_toNat_lt, hsmall,
        not_lt] at hguard
      obtain ⟨⟨hmax, h32⟩, hsize⟩ := hguard
      have h32' : 32 ≤ r'.length := h32
      rw [UInt64.toNat_sub_of_le _ _ (by rw [UInt64.le_iff_toNat_le, hsmall]; exact h32),
        hsmall] at hsize
      have hsize' : n.toNat ≤ r'.length - 32 := hsize
      have hr' : r' ≠ [] := by
        intro hnil
        simp [hnil] at h32'
      exact ⟨(readU64_eq_some hr').mp hn, hmax, by omega⟩
  · intro h
    obtain ⟨rfl, hmax, hsize⟩ := h
    have hshort : r.length < 2 ^ 64 := by
      simp at hs
      omega
    have hsmall : (UInt64.ofNat r.length).toNat = r.length := by
      rw [UInt64.toNat_ofNat']
      exact Nat.mod_eq_of_lt hshort
    rw [readSize, readU64_write]
    simp only [bind_eq_bind, bind_some]
    rw [if_neg]
    simp only [Bool.or_eq_true, decide_eq_true_eq, not_or, UInt64.lt_iff_toNat_lt, hsmall,
      not_lt]
    have h32 : (32 : UInt64).toNat ≤ r.length := by
      show 32 ≤ r.length
      omega
    refine ⟨⟨hmax, h32⟩, ?_⟩
    rw [UInt64.toNat_sub_of_le _ _ (by rw [UInt64.le_iff_toNat_le, hsmall]; exact h32), hsmall]
    show size.toNat ≤ r.length - 32
    omega

end Readers

/-! ## Checks -/

@[simp] theorem orMalformed_eq_ok {α : Type} {read : Option α} {text : Bytes} {value : α} :
    orMalformed read text = .ok value ↔ read = some value := by
  cases read <;> simp [orMalformed]

@[simp] theorem checked_eq_ok {condition : Bool} {text : Bytes} {u : Unit} :
    checked condition text = .ok u ↔ condition = true := by
  cases condition <;> simp [checked]

theorem checkLanguageVersion_eq_ok {quote : Bytes → Bytes} {version : Bytes} {u : Unit} :
    checkLanguageVersion quote version = .ok u ↔ version = languageVersion := by
  have hvalid : validLanguageVersion languageVersion = true := by decide
  by_cases h : version = languageVersion
  · simp [checkLanguageVersion, h, hvalid, pure, Except.pure]
  · by_cases hv : validLanguageVersion version = true <;>
      simp [checkLanguageVersion, h, hv, throw, throwThe, MonadExceptOf.throw]

theorem versionOf_eq_some {magic : Bytes} {version : FormatVersion} :
    versionOf magic = some version ↔ magic = version.magic := by
  constructor
  · intro h
    unfold versionOf at h
    split_ifs at h with h6 h5 h4 h3 <;> cases h <;> assumption
  · intro h
    rw [h]
    cases version <;> decide

theorem length_magic (version : FormatVersion) : version.magic.length = 11 := by
  cases version <;> decide

/-! ## The parts of the format -/

/-- The language's version, where the format has it. -/
def languageSection (version : FormatVersion) (language : Bytes) : Bytes :=
  if 4 ≤ version.number then writeString language else []

/-- The visibility scope, where the format has it. -/
def scopeSection (version : FormatVersion) (scope : Bytes) : Bytes :=
  if 5 ≤ version.number then writeString scope else []

def encodeData (data hash : Bytes) : Bytes :=
  writeU64 (UInt64.ofNat data.length) ++ (hash ++ data)

def encodeEntry (version : FormatVersion) (entry : ArtifactEntry) : Bytes :=
  writeString entry.path ++ (scopeSection version entry.visibilityScope ++
    encodeData entry.data entry.hash)

section Parts

variable {Tree : Type} {T : Toolchain Tree} {version : FormatVersion} {lim : CodecLimits}
  {s r : Bytes}

theorem decodeVersion_eq_ok (hr : r ≠ []) :
    decodeVersion s = .ok (version, r) ↔
      s = version.magic ++ (writeU32 version.number ++ r) := by
  simp only [decodeVersion, bind_eq_ok_iff, orMalformed_eq_ok, checked_eq_ok, pure, Except.pure,
    Except.ok.injEq, Prod.exists, Prod.mk.injEq, readFull_eq_some, versionOf_eq_some,
    decide_eq_true_eq]
  constructor
  · intro h
    obtain ⟨magic, r', ⟨rfl, -, -⟩, v, rfl, n, r'', hn, -, rfl, rfl, rfl⟩ := h
    rw [(readU32_eq_some hr).mp hn]
  · intro h
    refine ⟨_, _, ⟨h, length_magic _, ?_⟩, version, rfl, version.number, r, by simp, (), rfl,
      rfl, rfl⟩
    intro hnil
    have hlength := congrArg List.length (hnil ▸ h)
    simp only [length_nil, length_append, length_magic] at hlength
    omega

theorem decodeCompiler_eq_ok {compiler : Bytes} (hs : s.length < 2 ^ 64) :
    decodeCompiler version s = .ok (compiler, r) ↔
      s = writeString compiler ++ r ∧ compiler = version.compiler := by
  have hlength : version.compiler.length ≤ (256 : Int64).toUInt64.toNat ∧
      version.compiler ≠ [] := by
    cases version <;> decide
  simp only [decodeCompiler, bind_eq_ok_iff, orMalformed_eq_ok, checked_eq_ok, pure, Except.pure,
    Except.ok.injEq, Prod.exists, Prod.mk.injEq, readString_eq_some hs, decide_eq_true_eq]
  constructor
  · intro h
    obtain ⟨c, r', ⟨rfl, -, -⟩, -, rfl, rfl, rfl⟩ := h
    exact ⟨rfl, rfl⟩
  · intro h
    obtain ⟨rfl, rfl⟩ := h
    exact ⟨_, _, ⟨rfl, hlength.1, by simp [hlength.2]⟩, (), rfl, rfl, rfl⟩

theorem decodeLanguageVersion_eq_ok {language : Bytes} (hs : s.length < 2 ^ 64) :
    decodeLanguageVersion T version s = .ok (language, r) ↔
      s = languageSection version language ++ r ∧ language = languageVersion := by
  have hlength : languageVersion.length ≤ (64 : Int64).toUInt64.toNat ∧
      languageVersion ≠ [] := by
    decide
  unfold decodeLanguageVersion languageSection
  split
  case isFalse => simp [eq_comm, and_comm]
  case isTrue =>
    simp only [bind_eq_ok_iff, orMalformed_eq_ok, Prod.exists, readString_eq_some hs]
    constructor
    · intro h
      obtain ⟨l, r', ⟨rfl, -, -⟩, hcheck⟩ := h
      cases hversion : checkLanguageVersion T.quote l with
      | error text => simp [hversion] at hcheck
      | ok u =>
        have hl := checkLanguageVersion_eq_ok.mp hversion
        simp only [hversion, pure, Except.pure, Except.ok.injEq, Prod.mk.injEq] at hcheck
        obtain ⟨rfl, rfl⟩ := hcheck
        exact ⟨rfl, hl⟩
    · intro h
      obtain ⟨rfl, rfl⟩ := h
      refine ⟨_, _, ⟨rfl, hlength.1, by simp [hlength.2]⟩, ?_⟩
      have hok : checkLanguageVersion T.quote languageVersion = .ok () :=
        checkLanguageVersion_eq_ok.mpr rfl
      rfl

theorem decodeTarget_eq_ok {target : Bytes} (hs : s.length < 2 ^ 64) (hr : r ≠ []) :
    decodeTarget T version s = .ok (target, r) ↔
      s = ascii "KRY" ++ (writeString target ++ r) ∧ target = version.target T.host := by
  have htag : (ascii "KRY").length = 3 := by decide
  have hlength : (version.target T.host).length ≤ (64 : Int64).toUInt64.toNat := by
    cases version with
    | v6 =>
      show portableTarget.length ≤ _
      decide
    | v3 | v4 | v5 => exact T.length_host
  simp only [decodeTarget, bind_eq_ok_iff, orMalformed_eq_ok, checked_eq_ok, pure, Except.pure,
    Except.ok.injEq, Prod.exists, Prod.mk.injEq, readFull_eq_some, decide_eq_true_eq]
  constructor
  · intro h
    obtain ⟨tag, r', ⟨rfl, -, -⟩, -, rfl, t, r'', hread, -, rfl, rfl, rfl⟩ := h
    rw [readString_eq_some (by simp at hs; omega)] at hread
    exact ⟨by rw [hread.1], rfl⟩
  · intro h
    obtain ⟨rfl, rfl⟩ := h
    refine ⟨_, _, ⟨rfl, htag, by simp [hr]⟩, (), rfl, _, _, ?_, (), rfl, rfl, rfl⟩
    rw [readString_eq_some (by simp at hs; simp; omega)]
    exact ⟨rfl, hlength, by simp [hr]⟩

theorem decodeCount_eq_ok {n : UInt32} (hr : r ≠ []) :
    decodeCount lim s = .ok (n, r) ↔
      s = writeU32 n ++ r ∧ n ≠ 0 ∧ (n.toNat : Int) ≤ (lim.maxImports + 1).toInt := by
  simp only [decodeCount, bind_eq_ok_iff, orMalformed_eq_ok, checked_eq_ok, pure, Except.pure,
    Except.ok.injEq, Prod.exists, Prod.mk.injEq, Bool.and_eq_true, decide_eq_true_eq]
  constructor
  · intro h
    obtain ⟨m, r', hread, -, hcount, rfl, rfl⟩ := h
    exact ⟨(readU32_eq_some hr).mp hread, hcount⟩
  · intro h
    exact ⟨n, r, (readU32_eq_some hr).mpr h.1, (), h.2, rfl, rfl⟩

/-! ## Entries -/

/-- What the codec demands of an entry's scope: from the fifth version of the format on it is
    a safe path or the root's, before it is not stored. -/
def ScopeSound (version : FormatVersion) (scope : Bytes) : Prop :=
  if 5 ≤ version.number then safeArtifactScope scope = true else scope = []

theorem decodeScope_eq_ok {scope : Bytes} (hs : s.length < 2 ^ 64) :
    decodeScope version lim s = .ok (scope, r) ↔
      s = scopeSection version scope ++ r ∧ ScopeSound version scope ∧
        (5 ≤ version.number → scope.length ≤ lim.maxSourceBytes.toUInt64.toNat) := by
  unfold decodeScope scopeSection ScopeSound
  split
  case isFalse h => simp [h, eq_comm, and_comm]
  case isTrue h =>
    simp only [bind_eq_ok_iff, orMalformed_eq_ok, checked_eq_ok, pure, Except.pure,
      Except.ok.injEq, Prod.exists, Prod.mk.injEq, readString_eq_some hs, h, true_implies]
    constructor
    · intro h
      obtain ⟨c, r', ⟨rfl, hlength, -⟩, -, hsafe, rfl, rfl⟩ := h
      exact ⟨rfl, hsafe, hlength⟩
    · intro h
      obtain ⟨rfl, hsafe, hlength⟩ := h
      refine ⟨_, _, ⟨rfl, hlength, ?_⟩, (), hsafe, rfl, rfl⟩
      have hne : scope ≠ [] := by
        intro hnil
        rw [hnil] at hsafe
        revert hsafe
        decide
      simp [hne]

variable {i : Nat} {seen : List Bytes}

theorem decodePath_eq_ok {path : Bytes} (hs : s.length < 2 ^ 64) :
    decodePath lim i seen s = .ok (path, r) ↔
      s = writeString path ++ r ∧ path.length ≤ lim.maxSourceBytes.toUInt64.toNat ∧
        (i = 0 → path = artifactRootScope) ∧
        (0 < i → safeArtifactPath path = true ∧ path ≠ artifactRootScope) ∧ path ∉ seen := by
  simp only [decodePath, bind_eq_ok_iff, orMalformed_eq_ok, checked_eq_ok, pure, Except.pure,
    Except.ok.injEq, Prod.exists, Prod.mk.injEq, readString_eq_some hs, Bool.or_eq_true,
    Bool.not_eq_true', Bool.and_eq_false_iff, decide_eq_true_eq, decide_eq_false_iff_not]
  constructor
  · intro h
    obtain ⟨p, r', ⟨rfl, hlength, -⟩, -, hsafe, -, hfirst, -, hlater, -, hseen, rfl, rfl⟩ := h
    refine ⟨rfl, hlength, fun hi => ?_, fun hi => ?_, hseen⟩
    · simpa [hi] using hfirst
    · have hne : p ≠ artifactRootScope := by simpa [hi] using hlater
      exact ⟨hsafe.resolve_right hne, hne⟩
  · intro h
    obtain ⟨rfl, hlength, hfirst, hlater, hseen⟩ := h
    have hne : path ≠ [] := by
      intro hnil
      rcases Nat.eq_zero_or_pos i with hi | hi
      · rw [hnil] at hfirst
        have habs := hfirst hi
        revert habs
        decide
      · rw [hnil] at hlater
        have habs := (hlater hi).1
        revert habs
        decide
    refine ⟨_, _, ⟨rfl, hlength, by simp [hne]⟩, (), ?_, (), ?_, (), ?_, (), hseen, rfl, rfl⟩
    · rcases Nat.eq_zero_or_pos i with hi | hi
      · exact Or.inr (hfirst hi)
      · exact Or.inl (hlater hi).1
    · by_cases hi : i = 0
      · simp [hfirst hi]
      · simp [hi]
    · by_cases hi : 0 < i
      · simp [(hlater hi).2]
      · simp [hi]

theorem decodeData_eq_ok {data hash : Bytes} (hs : s.length < 2 ^ 64) :
    decodeData T lim s = .ok ((data, hash), r) ↔
      s = encodeData data hash ++ r ∧ data.length ≤ lim.maxSourceBytes.toUInt64.toNat ∧
        hash = T.digest data ∧ validUTF8 data = true ∧ data ++ r ≠ [] := by
  simp only [decodeData, bind_eq_ok_iff, orMalformed_eq_ok, checked_eq_ok, pure, Except.pure,
    Except.ok.injEq, Prod.exists, Prod.mk.injEq, readSize_eq_some hs, readFull_eq_some,
    decide_eq_true_eq]
  constructor
  · intro h
    obtain ⟨size, r₁, ⟨rfl, hmax, hsize⟩, hash', r₂, ⟨rfl, hhash, -⟩, data', r₃,
      ⟨rfl, hdata, hne⟩, -, hdigest, -, hutf8, ⟨rfl, rfl⟩, rfl⟩ := h
    refine ⟨?_, by rw [hdata]; exact hmax, hdigest.symm, hutf8, hne⟩
    rw [encodeData, hdata, UInt64.ofNat_toNat]
    simp
  · intro h
    obtain ⟨rfl, hmax, rfl, hutf8, hne⟩ := h
    have hsmall : (UInt64.ofNat data.length).toNat = data.length := by
      rw [UInt64.toNat_ofNat']
      apply Nat.mod_eq_of_lt
      simp [encodeData] at hs
      omega
    have hlength := T.length_digest data
    refine ⟨UInt64.ofNat data.length, T.digest data ++ (data ++ r), ⟨by simp [encodeData], ?_, ?_⟩,
      _, _, ⟨rfl, hlength, ?_⟩, data, r, ⟨rfl, hsmall.symm, hne⟩, (), rfl, (), hutf8,
      ⟨rfl, rfl⟩, rfl⟩
    · rw [hsmall]
      exact hmax
    · rw [hsmall]
      simp [hlength]
    · intro hnil
      have h := congrArg List.length hnil
      simp [hlength] at h

/-- What the codec demands of the `i`-th path: the first one is the root's, and the others
    are safe. -/
def PathSound (i : Nat) (path : Bytes) : Prop :=
  (i = 0 → path = artifactRootScope) ∧
    (0 < i → safeArtifactPath path = true ∧ path ≠ artifactRootScope)

/-- What the codec demands of an entry's scope and data, whatever the limits are. -/
structure EntrySound (T : Toolchain Tree) (version : FormatVersion) (entry : ArtifactEntry) :
    Prop where
  scope : ScopeSound version entry.visibilityScope
  hash : entry.hash = T.digest entry.data
  utf8 : validUTF8 entry.data = true

/-- The limits admit an entry. -/
structure EntryWithin (lim : CodecLimits) (version : FormatVersion) (entry : ArtifactEntry) :
    Prop where
  path : entry.path.length ≤ lim.maxSourceBytes.toUInt64.toNat
  scope : 5 ≤ version.number →
    entry.visibilityScope.length ≤ lim.maxSourceBytes.toUInt64.toNat
  data : entry.data.length ≤ lim.maxSourceBytes.toUInt64.toNat

theorem decodeEntry_eq_ok {entry : ArtifactEntry} (hs : s.length < 2 ^ 64) :
    decodeEntry T version lim i seen s = .ok (entry, r) ↔
      s = encodeEntry version entry ++ r ∧ EntrySound T version entry ∧
        EntryWithin lim version entry ∧ PathSound i entry.path ∧ entry.path ∉ seen ∧
        entry.data ++ r ≠ [] := by
  simp only [decodeEntry, bind_eq_ok_iff, pure, Except.pure, Except.ok.injEq, Prod.exists,
    Prod.mk.injEq, decodePath_eq_ok hs]
  constructor
  · intro h
    obtain ⟨path, r₁, ⟨rfl, hpath, hfirst, hlater, hseen⟩, scope, r₂, hscope, data, hash, r₃,
      hdata, rfl, rfl⟩ := h
    rw [decodeScope_eq_ok (by simp at hs; omega)] at hscope
    obtain ⟨rfl, hsound, hscope⟩ := hscope
    rw [decodeData_eq_ok (by simp at hs; omega)] at hdata
    obtain ⟨rfl, hmax, hhash, hutf8, hne⟩ := hdata
    exact ⟨by simp [encodeEntry], ⟨hsound, hhash, hutf8⟩, ⟨hpath, hscope, hmax⟩,
      ⟨hfirst, hlater⟩, hseen, hne⟩
  · intro h
    obtain ⟨rfl, hsound, hwithin, hpath, hseen, hne⟩ := h
    have hlength : (encodeData entry.data entry.hash ++ r).length < 2 ^ 64 := by
      simp [encodeEntry] at hs ⊢
      omega
    refine ⟨entry.path, scopeSection version entry.visibilityScope ++
      (encodeData entry.data entry.hash ++ r), ⟨by simp [encodeEntry], hwithin.path, hpath.1,
      hpath.2, hseen⟩, entry.visibilityScope, encodeData entry.data entry.hash ++ r, ?_,
      entry.data, entry.hash, r, ?_, rfl, rfl⟩
    · rw [decodeScope_eq_ok (by simp [encodeEntry] at hs hlength ⊢; omega)]
      exact ⟨rfl, hsound.scope, hwithin.scope⟩
    · rw [decodeData_eq_ok hlength]
      exact ⟨rfl, hwithin.data, hsound.hash, hsound.utf8, hne⟩

theorem encodeEntry_ne_nil (entry : ArtifactEntry) : encodeEntry version entry ≠ [] := by
  simp [encodeEntry]

/-- The loop over the entries: the induction is on the number of entries left. -/
theorem decodeEntries_eq_ok {n i : Nat} {entries : List ArtifactEntry} (hs : s.length < 2 ^ 64) :
    decodeEntries T version lim n i seen s = .ok (entries, r) ↔
      s = entries.flatMap (encodeEntry version) ++ r ∧ entries.length = n ∧
        (∀ entry ∈ entries, EntrySound T version entry ∧ EntryWithin lim version entry ∧
          entry.path ∉ seen) ∧
        (∀ k (hk : k < entries.length), PathSound (i + k) entries[k].path) ∧
        (entries.map ArtifactEntry.path).Nodup ∧
        (∀ entry, entries.getLast? = some entry → entry.data ++ r ≠ []) := by
  induction n generalizing i seen s entries with
  | zero =>
    simp only [decodeEntries, Except.ok.injEq, Prod.mk.injEq, length_eq_zero_iff]
    constructor
    · intro h
      obtain ⟨rfl, rfl⟩ := h
      simp
    · intro h
      obtain ⟨rfl, rfl, -⟩ := h
      simp
  | succ n ih =>
    simp only [decodeEntries, bind_eq_ok_iff, pure, Except.pure, Except.ok.injEq, Prod.exists,
      Prod.mk.injEq, decodeEntry_eq_ok hs]
    constructor
    · intro h
      obtain ⟨entry, r₁, ⟨rfl, hsound, hwithin, hpath, hseen, hne⟩, rest, r₂, hrest, rfl, rfl⟩ := h
      rw [ih (by simp at hs; omega)] at hrest
      obtain ⟨rfl, rfl, hall, hplaces, hnodup, hlast⟩ := hrest
      refine ⟨by simp, rfl, ?_, ?_, ?_, ?_⟩
      · intro e he
        rcases mem_cons.mp he with rfl | he
        · exact ⟨hsound, hwithin, hseen⟩
        · obtain ⟨h₁, h₂, h₃⟩ := hall e he
          exact ⟨h₁, h₂, fun hmem => h₃ (mem_cons_of_mem _ hmem)⟩
      · intro k hk
        cases k with
        | zero => exact hpath
        | succ k =>
          have hplace := hplaces k (by simpa using hk)
          rw [show i + (k + 1) = i + 1 + k by omega]
          exact hplace
      · rw [map_cons, nodup_cons]
        refine ⟨?_, hnodup⟩
        intro hmem
        obtain ⟨e, he, heq⟩ := mem_map.mp hmem
        apply (hall e he).2.2
        rw [heq]
        exact mem_cons_self
      · intro e he
        cases rest with
        | nil =>
          obtain rfl : entry = e := by simpa using he
          simpa using hne
        | cons first rest => exact hlast e (by simpa using he)
    · intro h
      obtain ⟨rfl, hlength, hall, hplaces, hnodup, hlast⟩ := h
      obtain ⟨entry, rest, rfl⟩ := exists_cons_of_length_eq_add_one hlength
      rw [map_cons, nodup_cons] at hnodup
      obtain ⟨hsound, hwithin, hseen⟩ := hall entry mem_cons_self
      refine ⟨entry, rest.flatMap (encodeEntry version) ++ r, ⟨by simp, hsound, hwithin,
        hplaces 0 (by simp), hseen, ?_⟩, rest, r, ?_, rfl, rfl⟩
      · cases rest with
        | nil => simpa using hlast entry (by simp)
        | cons first rest => simp [encodeEntry_ne_nil]
      · rw [ih (by simp at hs ⊢; omega)]
        refine ⟨rfl, by simpa using hlength, ?_, ?_, hnodup.2, ?_⟩
        · intro e he
          obtain ⟨h₁, h₂, h₃⟩ := hall e (mem_cons_of_mem _ he)
          refine ⟨h₁, h₂, ?_⟩
          rw [mem_cons, not_or]
          refine ⟨?_, h₃⟩
          intro heq
          exact hnodup.1 (heq ▸ mem_map_of_mem he)
        · intro k hk
          have hplace := hplaces (k + 1) (by simpa using hk)
          rw [show i + (k + 1) = i + 1 + k by omega] at hplace
          exact hplace
        · intro e he
          cases rest with
          | nil => simp at he
          | cons first rest => exact hlast e (by simpa using he)

/-! ## The whole artifact -/

/-- The KIR, where the format has it. -/
def kirSection (T : Toolchain Tree) (version : FormatVersion) (kir : Bytes) : Bytes :=
  if 6 ≤ version.number then writeU64 (UInt64.ofNat kir.length) ++ (T.digest kir ++ kir) else []

/-- The bytes of an artifact in a version of the format. -/
def encodeArtifact (T : Toolchain Tree) (version : FormatVersion) (a : Artifact) : Bytes :=
  version.magic ++ (writeU32 version.number ++ (writeString a.compiler ++
    (languageSection version a.languageVersion ++ (ascii "KRY" ++ (writeString a.target ++
      (writeU32 (UInt32.ofNat a.entries.length) ++
        (a.entries.flatMap (encodeEntry version) ++ kirSection T version a.kir)))))))

theorem decodeKIRSection_eq_ok {kir : Bytes} (hs : s.length < 2 ^ 64) :
    decodeKIRSection T version lim s = .ok (kir, r) ↔
      s = kirSection T version kir ++ r ∧ (¬ 6 ≤ version.number → kir = []) ∧
        (6 ≤ version.number → T.decodeKIR kir lim = .ok () ∧
          kir.length ≤ lim.maxArtifactBytes.toUInt64.toNat) := by
  unfold decodeKIRSection kirSection
  split
  case isFalse h => simp [h, eq_comm, and_comm]
  case isTrue h =>
    simp only [bind_eq_ok_iff, orMalformed_eq_ok, checked_eq_ok, Prod.exists,
      readSize_eq_some hs, readFull_eq_some, decide_eq_true_eq, h, not_true_eq_false,
      false_implies, true_implies, true_and]
    constructor
    · intro h
      obtain ⟨size, r₁, ⟨rfl, hmax, hsize⟩, hash, r₂, ⟨rfl, hhash, -⟩, data, r₃,
        ⟨rfl, hdata, -⟩, -, rfl, hkir⟩ := h
      cases hdecode : T.decodeKIR data lim with
      | error text => simp [hdecode, throw, throwThe, MonadExceptOf.throw] at hkir
      | ok u =>
        simp only [hdecode, pure, Except.pure, Except.ok.injEq, Prod.mk.injEq] at hkir
        obtain ⟨rfl, rfl⟩ := hkir
        refine ⟨?_, hdecode, by rw [hdata]; exact hmax⟩
        rw [hdata, UInt64.ofNat_toNat]
        simp
    · intro h
      obtain ⟨rfl, hdecode, hmax⟩ := h
      have hsmall : (UInt64.ofNat kir.length).toNat = kir.length := by
        apply Nat.mod_eq_of_lt
        simp at hs
        omega
      have hlength := T.length_digest kir
      have hne : kir ≠ [] := by
        intro hnil
        exact T.decodeKIR_nil lim (hnil ▸ hdecode)
      refine ⟨UInt64.ofNat kir.length, T.digest kir ++ (kir ++ r), ⟨by simp, ?_, ?_⟩, _, _,
        ⟨rfl, hlength, ?_⟩, kir, r, ⟨rfl, hsmall.symm, by simp [hne]⟩, (), rfl, ?_⟩
      · rw [hsmall]
        exact hmax
      · rw [hsmall]
        simp [hlength]
      · simp [hne]
      · rw [hdecode]
        rfl

/-- What the codec demands of an artifact, whatever the limits are. -/
structure ArtifactSound (T : Toolchain Tree) (version : FormatVersion) (a : Artifact) :
    Prop where
  compiler : a.compiler = version.compiler
  target : a.target = version.target T.host
  language : a.languageVersion = languageVersion
  nonempty : a.entries ≠ []
  entries : ∀ entry ∈ a.entries, EntrySound T version entry
  places : ∀ k (hk : k < a.entries.length), PathSound k a.entries[k].path
  nodup : (a.entries.map ArtifactEntry.path).Nodup
  kir : a.kir ≠ [] ↔ 6 ≤ version.number
  /-- In the older versions nothing follows the last entry, and the reader takes an empty one
      for the end of the input. -/
  last : ¬ 6 ≤ version.number → ∀ entry, a.entries.getLast? = some entry → entry.data ≠ []

/-- The limits admit an artifact. -/
structure ArtifactWithin (T : Toolchain Tree) (lim : CodecLimits) (version : FormatVersion)
    (a : Artifact) : Prop where
  size : ((encodeArtifact T version a).length : Int) ≤ lim.maxArtifactBytes.toInt
  /-- The count has 32 bits. -/
  count : a.entries.length < 2 ^ 32
  imports : (a.entries.length : Int) ≤ (lim.maxImports + 1).toInt
  entries : ∀ entry ∈ a.entries, EntryWithin lim version entry
  kir : 6 ≤ version.number → T.decodeKIR a.kir lim = .ok ()

variable {a : Artifact}

/-- The decoder accepts a byte string only as the bytes of what it returns. -/
theorem encode_of_decode {data : Bytes} (h : decodeArtifact T data lim = .ok a) :
    ∃ version, data = encodeArtifact T version a ∧ ArtifactSound T version a ∧
      ArtifactWithin T lim version a := by
  unfold decodeArtifact at h
  split at h
  · simp [throw, throwThe, MonadExceptOf.throw, bind, Except.bind] at h
  · rename_i hsize
    simp only [bind_eq_ok_iff, checked_eq_ok, pure, Except.pure, Except.ok.injEq, Prod.exists,
      decide_eq_true_eq] at h
    obtain ⟨version, r₁, hversion, compiler, r₂, hcompiler, language, r₃, hlanguage, target, r₄,
      htarget, n, r₅, hcount, entries, r₆, hentries, kir, r₇, hkir, -, rfl, -, hroot, rfl⟩ := h
    have hlong : data.length < 2 ^ 63 := by
      have hmax := lim.maxArtifactBytes.toInt_lt
      omega
    have hr₁ : r₁ ≠ [] := by
      intro hnil
      rw [hnil, decodeCompiler_eq_ok (by simp)] at hcompiler
      simp at hcompiler
    rw [decodeVersion_eq_ok hr₁] at hversion
    subst hversion
    rw [decodeCompiler_eq_ok (by simp at hlong; omega)] at hcompiler
    obtain ⟨rfl, hcompiler⟩ := hcompiler
    rw [decodeLanguageVersion_eq_ok (by simp at hlong; omega)] at hlanguage
    obtain ⟨rfl, hlanguage⟩ := hlanguage
    have hr₄ : r₄ ≠ [] := by
      intro hnil
      simp [hnil, decodeCount, readU32, readBytes, orMalformed, bind, Except.bind] at hcount
    rw [decodeTarget_eq_ok (by simp at hlong; omega) hr₄] at htarget
    obtain ⟨rfl, htarget⟩ := htarget
    have hn : n ≠ 0 := by
      simp only [decodeCount, bind_eq_ok_iff, checked_eq_ok, pure, Except.pure, Except.ok.injEq,
        Prod.exists, Prod.mk.injEq, Bool.and_eq_true, decide_eq_true_eq] at hcount
      obtain ⟨m, r', -, -, hm, rfl, -⟩ := hcount
      exact hm.1
    have hn' : n.toNat ≠ 0 := by
      intro hzero
      exact hn (UInt32.toNat_inj.mp hzero)
    have hr₅ : r₅ ≠ [] := by
      intro hnil
      rw [hnil, decodeEntries_eq_ok (by simp)] at hentries
      obtain ⟨hflat, hlength, -⟩ := hentries
      cases entries with
      | nil => exact hn' (by simpa using hlength.symm)
      | cons entry rest => simp [encodeEntry_ne_nil] at hflat
    rw [decodeCount_eq_ok hr₅] at hcount
    obtain ⟨rfl, -, himports⟩ := hcount
    rw [decodeEntries_eq_ok (by simp at hlong; omega)] at hentries
    obtain ⟨rfl, hlength, hall, hplaces, hnodup, hlast⟩ := hentries
    rw [decodeKIRSection_eq_ok (by simp at hlong; omega), append_nil] at hkir
    obtain ⟨rfl, hnokir, hkir⟩ := hkir
    have hcount : UInt32.ofNat entries.length = n := by
      rw [hlength, UInt32.ofNat_toNat]
    refine ⟨version, by simp [encodeArtifact, hcount], ⟨hcompiler, htarget, hlanguage, ?_,
      fun e he => (hall e he).1, ?_, hnodup, ?_, ?_⟩, ⟨?_, ?_, ?_, fun e he => (hall e he).2.1,
      fun h => (hkir h).1⟩⟩
    · rintro rfl
      exact hn' (by simpa using hlength.symm)
    · intro k hk
      simpa using hplaces k hk
    · constructor
      · intro hne
        by_contra hold
        exact hne (hnokir hold)
      · intro hnew hnil
        exact T.decodeKIR_nil lim (hnil ▸ (hkir hnew).1)
    · intro hold e he
      have hne := hlast e he
      simpa [kirSection, hold] using hne
    · simpa [encodeArtifact, hcount] using hsize
    · rw [hlength]
      exact n.toNat_lt
    · rw [hlength]
      exact himports

/-- The bytes of a sound artifact that the limits admit are accepted. -/
theorem decode_of_encode (hsound : ArtifactSound T version a)
    (hwithin : ArtifactWithin T lim version a) :
    decodeArtifact T (encodeArtifact T version a) lim = .ok a := by
  have hsize := hwithin.size
  have hlong : (encodeArtifact T version a).length < 2 ^ 63 := by
    have hmax := lim.maxArtifactBytes.toInt_lt
    omega
  have hn : (UInt32.ofNat a.entries.length).toNat = a.entries.length := by
    rw [UInt32.toNat_ofNat']
    exact Nat.mod_eq_of_lt hwithin.count
  have h₁ := length_lt_of_append hlong
  have h₂ := length_lt_of_append h₁
  have h₃ := length_lt_of_append h₂
  have h₄ := length_lt_of_append h₃
  have h₅ := length_lt_of_append (length_lt_of_append h₄)
  have h₆ := length_lt_of_append h₅
  have h₇ := length_lt_of_append h₆
  have hnew : kirSection T version a.kir ≠ [] ↔ 6 ≤ version.number := by
    by_cases h : 6 ≤ version.number <;> simp [kirSection, h]
  unfold decodeArtifact
  rw [if_neg (by omega)]
  simp only [bind_eq_ok_iff, checked_eq_ok, pure, Except.pure, Except.ok.injEq, Prod.exists,
    decide_eq_true_eq]
  refine ⟨version, _, (decodeVersion_eq_ok (by simp)).mpr rfl, a.compiler, _,
    (decodeCompiler_eq_ok (by omega)).mpr ⟨rfl, hsound.compiler⟩, a.languageVersion, _,
    (decodeLanguageVersion_eq_ok (by omega)).mpr ⟨rfl, hsound.language⟩, a.target, _,
    (decodeTarget_eq_ok (by omega) (by simp)).mpr ⟨rfl, hsound.target⟩,
    UInt32.ofNat a.entries.length, _, (decodeCount_eq_ok ?_).mpr ⟨rfl, ?_, ?_⟩, a.entries,
    kirSection T version a.kir, (decodeEntries_eq_ok (by omega)).mpr ⟨rfl, hn.symm, ?_, ?_,
    hsound.nodup, ?_⟩, a.kir, [], (decodeKIRSection_eq_ok (by omega)).mpr ⟨by simp, ?_, ?_⟩, (),
    rfl, (), ?_, rfl⟩
  · obtain ⟨entry, rest, hentries⟩ := exists_cons_of_ne_nil hsound.nonempty
    simp [hentries, encodeEntry_ne_nil]
  · intro hzero
    rw [hzero] at hn
    exact hsound.nonempty (length_eq_zero_iff.mp hn.symm)
  · rw [hn]
    exact hwithin.imports
  · intro e he
    exact ⟨hsound.entries e he, hwithin.entries e he, by simp⟩
  · intro k hk
    simpa using hsound.places k hk
  · intro e he
    by_cases hv : 6 ≤ version.number
    · simp [hnew.mpr hv]
    · simp [hsound.last hv e he]
  · intro hv
    by_contra hne
    exact hv (hsound.kir.mp hne)
  · intro hv
    refine ⟨hwithin.kir hv, ?_⟩
    have hkir : a.kir.length ≤ (encodeArtifact T version a).length := by
      simp [encodeArtifact, kirSection, hv]
      omega
    have hlength : a.kir.length ≤ lim.maxArtifactBytes.toInt.toNat := by omega
    rw [Int64.toNat_toUInt64_of_le (Int64.le_iff_toInt_le.mpr (by simp; omega))]
    exact hlength
  · obtain ⟨entry, rest, hentries⟩ := exists_cons_of_ne_nil hsound.nonempty
    have hroot := (hsound.places 0 (by simp [hentries])).1 rfl
    simp only [hentries, getElem_cons_zero] at hroot
    simp [hentries, hroot]

/-- The version of the format that an artifact was written in. -/
def Artifact.formatVersion (a : Artifact) : FormatVersion :=
  if a.kir ≠ [] then .v6
  else if (a.entries.head?.map ArtifactEntry.visibilityScope).getD [] ≠ [] then .v5
  else if a.compiler = compilerIdentity then .v4
  else .v3

theorem scope_ne_nil {scope : Bytes} (h : ScopeSound version scope) (hv : 5 ≤ version.number) :
    scope ≠ [] := by
  rintro rfl
  rw [ScopeSound, if_pos hv] at h
  revert h
  decide

theorem ArtifactSound.version_eq (h : ArtifactSound T version a) :
    a.formatVersion = version := by
  obtain ⟨root, modules, hentries⟩ := exists_cons_of_ne_nil h.nonempty
  have hscope := (h.entries root (by simp [hentries])).scope
  have hkir := h.kir
  have hcompiler := h.compiler
  have hlegacy : legacyCompilerID ≠ compilerIdentity := by decide
  unfold Artifact.formatVersion
  simp only [hentries, head?_cons, map_some, getD_some]
  cases version with
  | v6 =>
    rw [if_pos (hkir.mpr (by decide))]
  | v5 =>
    rw [if_neg (fun hne => absurd (hkir.mp hne) (by decide)),
      if_pos (scope_ne_nil hscope (by decide))]
  | v4 =>
    have hempty : root.visibilityScope = [] := hscope
    have hsame : a.compiler = compilerIdentity := hcompiler
    rw [if_neg (fun hne => absurd (hkir.mp hne) (by decide)), if_neg (by simp [hempty]),
      if_pos hsame]
  | v3 =>
    have hempty : root.visibilityScope = [] := hscope
    have hother : a.compiler ≠ compilerIdentity := by
      rw [hcompiler]
      exact hlegacy
    rw [if_neg (fun hne => absurd (hkir.mp hne) (by decide)), if_neg (by simp [hempty]),
      if_neg hother]

theorem decodeArtifact_eq_ok {data : Bytes} :
    decodeArtifact T data lim = .ok a ↔
      data = encodeArtifact T a.formatVersion a ∧ ArtifactSound T a.formatVersion a ∧
        ArtifactWithin T lim a.formatVersion a := by
  constructor
  · intro h
    obtain ⟨version, hdata, hsound, hwithin⟩ := encode_of_decode h
    rw [hsound.version_eq]
    exact ⟨hdata, hsound, hwithin⟩
  · intro h
    obtain ⟨rfl, hsound, hwithin⟩ := h
    exact decode_of_encode hsound hwithin

end Parts
end Kryndel
