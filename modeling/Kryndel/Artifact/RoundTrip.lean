import Kryndel.Artifact.Canonical

/-!
# Encoding and decoding artifacts

What `BuildArtifactWithChecker` writes is a sound artifact of the current version of the
format, so that it is decoded to exactly what was encoded wherever the limits admit it, and
to nothing else anywhere (`artifact_codec`).

The decoder is more liberal than the encoder in two ways: it reads the older versions of the
format, and the modules may stand in any order.
-/

namespace Kryndel

open List

section Build

variable {Tree : Type} {T : Toolchain Tree} {lim : CodecLimits}

/-! ## What the encoder writes -/

/-- What the encoder writes about a program. -/
def builtArtifact (entries : List ArtifactEntry) (kir : Bytes) : Artifact :=
  ⟨compilerIdentity, portableTarget, languageVersion, entries, kir⟩

theorem writeArtifact_eq (entries : List ArtifactEntry) (kir : Bytes) :
    writeArtifact T entries kir = encodeArtifact T .v6 (builtArtifact entries kir) := by
  have hentry : writeEntry = encodeEntry .v6 := by
    funext entry
    simp [writeEntry, encodeEntry, encodeData, scopeSection, FormatVersion.number]
  simp [writeArtifact, encodeArtifact, builtArtifact, languageSection, kirSection, hentry,
    FormatVersion.number]

variable {base : Path}

theorem scopeInside_eq_ok {source : SourceText} {scope stored : Bytes}
    (h : scopeInside T base source scope = .ok stored) : safeArtifactScope stored = true := by
  unfold scopeInside at h
  split at h
  case h_2 => cases h
  case h_1 path hpath =>
    cases h
    unfold relativeArtifactScope at hpath
    have hroot : safeArtifactScope artifactRootScope = true := by decide
    split at hpath
    · cases hpath
      exact hroot
    · dsimp only at hpath
      split at hpath
      · cases hpath
      · split_ifs at hpath with hups hnames hsafe
        · cases hpath
          exact hroot
        · cases hpath
          simp only [Bool.not_eq_true', Bool.not_eq_false] at hsafe
          simp [safeArtifactScope, hsafe]

theorem modulePath_eq_ok {source : SourceText} {path : Bytes}
    (h : modulePath base source = .ok path) : safeArtifactPath path = true := by
  unfold modulePath at h
  split at h
  · cases h
  · dsimp only at h
    split_ifs at h with hups hext hsafe hsafe
    all_goals
      cases h
      simpa using hsafe

/-- The entries of modules: their paths are safe, and new. -/
structure ModuleEntries (T : Toolchain Tree) (seen : List Bytes) (entries : List ArtifactEntry) :
    Prop where
  sound : ∀ entry ∈ entries, safeArtifactPath entry.path = true ∧ entry.path ∉ seen ∧
    safeArtifactScope entry.visibilityScope = true ∧ entry.hash = T.digest entry.data
  nodup : (entries.map ArtifactEntry.path).Nodup

variable {entries : List ArtifactEntry}

theorem moduleEntries_eq_ok {seen : List Bytes} {sources : List SourceText}
    (h : moduleEntries T base seen sources = .ok entries) :
    ModuleEntries T seen entries := by
  induction sources generalizing seen entries with
  | nil =>
    cases h
    exact ⟨by simp, by simp⟩
  | cons source sources ih =>
    simp only [moduleEntries, bind_eq_ok_iff] at h
    obtain ⟨path, hpath, scope, hscope, h⟩ := h
    split_ifs at h with hseen
    · exact ih h
    · obtain ⟨rest, hrest, h⟩ := bind_eq_ok h
      cases h
      obtain ⟨hsound, hnodup⟩ := ih hrest
      constructor
      · intro e he
        rcases mem_cons.mp he with rfl | he
        · exact ⟨modulePath_eq_ok hpath, hseen, scopeInside_eq_ok hscope, rfl⟩
        · obtain ⟨h₁, h₂, h₃⟩ := hsound e he
          exact ⟨h₁, fun hmem => h₂ (mem_cons_of_mem _ hmem), h₃⟩
      · rw [map_cons, nodup_cons]
        refine ⟨?_, hnodup⟩
        intro hmem
        obtain ⟨e, he, heq⟩ := mem_map.mp hmem
        apply (hsound e he).2.1
        rw [heq]
        exact mem_cons_self

theorem ModuleEntries.sort {seen : List Bytes} (h : ModuleEntries T seen entries) :
    ModuleEntries T seen (sortEntries entries) := by
  have hperm : (sortEntries entries).Perm entries := perm_insertionSort _ _
  exact ⟨fun e he => h.sound e (hperm.mem_iff.mp he), (hperm.map _).nodup_iff.mpr h.nodup⟩

theorem ok_of_mapM_ok {α β ε : Type} {f : α → Except ε β} {xs : List α} {ys : List β}
    (h : xs.mapM f = .ok ys) {x : α} (hx : x ∈ xs) : ∃ y, f x = .ok y := by
  induction xs generalizing ys with
  | nil => cases hx
  | cons x' xs ih =>
    rw [mapM_cons] at h
    obtain ⟨y, hy, h⟩ := bind_eq_ok h
    obtain ⟨rest, hrest, -⟩ := bind_eq_ok h
    rcases mem_cons.mp hx with rfl | hx
    · exact ⟨y, hy⟩
    · exact ih hrest hx

theorem validUTF8_of_program {program : List (SourceText × Tree)}
    (h : programFromArtifact T entries lim = .ok program) :
    ∀ entry ∈ entries, validUTF8 entry.data = true := by
  intro entry hentry
  cases entries with
  | nil => cases hentry
  | cons root modules =>
    have hmem : ∃ source ∈ (⟨ascii "<artifact-root>", root.data, root.visibilityScope⟩ ::
        modules.map fun entry => (⟨entry.path, entry.data, entry.visibilityScope⟩ : SourceText)),
        source.text = entry.data := by
      rcases mem_cons.mp hentry with rfl | hentry
      · exact ⟨_, mem_cons_self, rfl⟩
      · exact ⟨_, mem_cons_of_mem _ (mem_map_of_mem hentry), rfl⟩
    obtain ⟨source, hsource, htext⟩ := hmem
    obtain ⟨y, hy⟩ := ok_of_mapM_ok h hsource
    obtain ⟨tree, htree, -⟩ := bind_eq_ok hy
    unfold parseSource at htree
    split_ifs at htree with hsize hutf8
    rw [← htext]
    simpa using hutf8

variable {prog : LoadedProgram}

theorem artifactEntries_eq_ok {root : Bytes} (h : artifactEntries T prog root = .ok entries) :
    ∃ scope modules, entries = .make T artifactRootScope scope prog.source.text :: modules ∧
      safeArtifactScope scope = true ∧ ModuleEntries T [artifactRootScope] modules := by
  obtain ⟨scope, hscope, h⟩ := bind_eq_ok h
  obtain ⟨modules, hmodules, h⟩ := bind_eq_ok h
  cases h
  exact ⟨scope, _, rfl, scopeInside_eq_ok hscope, (moduleEntries_eq_ok hmodules).sort⟩

theorem checkedKIR_eq_ok {kir : Bytes} (h : checkedKIR T prog entries lim = .ok kir) :
    (∃ program, programFromArtifact T entries lim = .ok program) ∧
      T.decodeKIR kir lim = .ok () := by
  obtain ⟨program, hprogram, h⟩ := bind_eq_ok h
  obtain ⟨emitted, hemitted, h⟩ := bind_eq_ok h
  cases hdecode : T.decodeKIR emitted lim with
  | error text => simp [hdecode, throw, throwThe, MonadExceptOf.throw] at h
  | ok u =>
    simp only [hdecode, pure, Except.pure, Except.ok.injEq] at h
    rw [← h]
    exact ⟨⟨program, hprogram⟩, hdecode⟩

theorem builtArtifact_sound {root : Bytes} {kir : Bytes}
    (hentries : artifactEntries T prog root = .ok entries)
    (hkir : checkedKIR T prog entries lim = .ok kir) :
    ArtifactSound T .v6 (builtArtifact entries kir) := by
  obtain ⟨⟨program, hprogram⟩, hdecode⟩ := checkedKIR_eq_ok hkir
  have hutf8 := validUTF8_of_program hprogram
  obtain ⟨scope, modules, rfl, hscope, hmodules⟩ := artifactEntries_eq_ok hentries
  refine ⟨rfl, rfl, rfl, by simp [builtArtifact], ?_, ?_, ?_, ?_, ?_⟩
  · intro e he
    refine ⟨?_, ?_, hutf8 e he⟩
    · rcases mem_cons.mp he with rfl | he
      · exact hscope
      · exact (hmodules.sound e he).2.2.1
    · rcases mem_cons.mp he with rfl | he
      · rfl
      · exact (hmodules.sound e he).2.2.2
  · intro k hk
    cases k with
    | zero => exact ⟨fun _ => rfl, fun h => absurd h (Nat.lt_irrefl 0)⟩
    | succ k =>
      have hk' : k < modules.length := by simpa [builtArtifact] using hk
      obtain ⟨hsafe, hnew, -⟩ := hmodules.sound modules[k] (getElem_mem hk')
      have hother : modules[k].path ≠ artifactRootScope := by simpa using hnew
      exact ⟨fun h => absurd h (Nat.succ_ne_zero k), fun _ => ⟨hsafe, hother⟩⟩
  · show ((_ :: modules).map ArtifactEntry.path).Nodup
    rw [map_cons, nodup_cons]
    refine ⟨?_, hmodules.nodup⟩
    intro hmem
    obtain ⟨e, he, heq⟩ := mem_map.mp hmem
    apply (hmodules.sound e he).2.1
    rw [heq]
    exact mem_cons_self
  · have hne : kir ≠ [] := by
      rintro rfl
      exact T.decodeKIR_nil lim hdecode
    exact ⟨fun _ => by decide, fun _ => hne⟩
  · intro hold
    exact absurd (by decide) hold

theorem buildArtifactWithChecker_eq_ok {own : Bool} {root data : Bytes}
    (h : buildArtifactWithChecker T own prog root lim = .ok data) :
    ∃ entries kir, artifactEntries T prog root = .ok entries ∧
      checkedKIR T prog entries lim = .ok kir ∧
      data = encodeArtifact T .v6 (builtArtifact entries kir) := by
  unfold buildArtifactWithChecker at h
  split at h
  · simp [throw, throwThe, MonadExceptOf.throw, bind, Except.bind] at h
  · obtain ⟨-, -, h⟩ := bind_eq_ok h
    obtain ⟨entries, hentries, h⟩ := bind_eq_ok h
    obtain ⟨kir, hkir, h⟩ := bind_eq_ok h
    dsimp only at h
    split at h
    · simp [throw, throwThe, MonadExceptOf.throw, bind, Except.bind] at h
    · cases h
      exact ⟨entries, kir, hentries, hkir, writeArtifact_eq entries kir⟩

/-! ## Bytes determine the artifact -/

/-- The same codec with a KIR decoder that accepts every document. -/
def Toolchain.trusting (T : Toolchain Tree) : Toolchain Tree :=
  { T with
    decodeKIR := fun kir _ => if kir = [] then .error [] else .ok ()
    decodeKIR_nil := by simp }

/-- Limits that admit everything that is not too long for a file. -/
def CodecLimits.widest : CodecLimits :=
  ⟨Int64.maxValue, Int64.maxValue, 4294967296⟩

variable {version : FormatVersion}

theorem within_widest {a : Artifact} (hsound : ArtifactSound T version a)
    (hcount : a.entries.length < 2 ^ 32) (hsize : (encodeArtifact T version a).length < 2 ^ 63) :
    ArtifactWithin T.trusting .widest version a := by
  have hmax : CodecLimits.widest.maxSourceBytes.toUInt64.toNat = 2 ^ 63 - 1 := by decide
  have hmaxArtifact : CodecLimits.widest.maxArtifactBytes.toInt = 2 ^ 63 - 1 := by decide
  have himports : (CodecLimits.widest.maxImports + 1).toInt = 2 ^ 32 + 1 := by decide
  refine ⟨?_, hcount, ?_, ?_, ?_⟩
  · rw [hmaxArtifact]
    show ((encodeArtifact T version a).length : Int) ≤ 2 ^ 63 - 1
    omega
  · rw [himports]
    omega
  · intro e he
    have hpart : (encodeEntry version e).length ≤
        (a.entries.flatMap (encodeEntry version)).length := by
      exact (sublist_flatten_of_mem (mem_map_of_mem he)).length_le
    have hwhole : (a.entries.flatMap (encodeEntry version)).length ≤
        (encodeArtifact T version a).length := by
      simp only [encodeArtifact, length_append]
      omega
    have hlengths : e.path.length ≤ (encodeEntry version e).length ∧
        e.data.length ≤ (encodeEntry version e).length ∧
        (5 ≤ version.number → e.visibilityScope.length ≤ (encodeEntry version e).length) := by
      refine ⟨?_, ?_, fun hv => ?_⟩
      · simp [encodeEntry]
        omega
      · simp [encodeEntry, encodeData]
        omega
      · simp [encodeEntry, scopeSection, hv]
        omega
    constructor
    · rw [hmax]
      omega
    · intro hv
      have := hlengths.2.2 hv
      rw [hmax]
      omega
    · rw [hmax]
      omega
  · intro hv
    have hne := hsound.kir.mpr hv
    simp [Toolchain.trusting, hne]

theorem encodeArtifact_injective {a b : Artifact} (ha : ArtifactSound T version a)
    (hb : ArtifactSound T version b) (hcount : a.entries.length < 2 ^ 32)
    (hcount' : b.entries.length < 2 ^ 32) (hsize : (encodeArtifact T version a).length < 2 ^ 63)
    (h : encodeArtifact T version a = encodeArtifact T version b) : a = b := by
  have hsound : ∀ {c}, ArtifactSound T version c → ArtifactSound T.trusting version c := by
    intro c hc
    exact ⟨hc.compiler, hc.target, hc.language, hc.nonempty,
      fun e he => ⟨(hc.entries e he).scope, (hc.entries e he).hash, (hc.entries e he).utf8⟩,
      hc.places, hc.nodup, hc.kir, hc.last⟩
  have hdecode : decodeArtifact T.trusting (encodeArtifact T version a) .widest = .ok a :=
    decode_of_encode (hsound ha) (within_widest ha hcount hsize)
  have hdecode' : decodeArtifact T.trusting (encodeArtifact T version b) .widest = .ok b :=
    decode_of_encode (hsound hb) (within_widest hb hcount' (h ▸ hsize))
  rw [h, hdecode'] at hdecode
  exact (Except.ok.inj hdecode).symm

/-! ## The codec -/

/-- What was encoded is decoded exactly where the limits admit it, and nothing else is decoded
    from its bytes. What is accepted has the bytes of the artifact that is returned, in the
    version of the format that it shows; the lengths that are stored in it do not overflow. -/
theorem artifact_codec (T : Toolchain Tree) :
    (∀ own prog root lim data, buildArtifactWithChecker T own prog root lim = .ok data →
      ∃ entries kir, artifactEntries T prog root = .ok entries ∧
        checkedKIR T prog entries lim = .ok kir ∧
        (∀ lim', decodeArtifact T data lim' = .ok (builtArtifact entries kir) ↔
          ArtifactWithin T lim' .v6 (builtArtifact entries kir)) ∧
        (entries.length < 2 ^ 32 → ∀ lim' a, decodeArtifact T data lim' = .ok a →
          a = builtArtifact entries kir)) ∧
    (∀ data lim a, decodeArtifact T data lim = .ok a →
      data = encodeArtifact T a.formatVersion a ∧ ArtifactSound T a.formatVersion a ∧
        ArtifactWithin T lim a.formatVersion a ∧ data.length < 2 ^ 63) := by
  constructor
  · intro own prog root lim data hbuild
    obtain ⟨entries, kir, hentries, hkir, rfl⟩ := buildArtifactWithChecker_eq_ok hbuild
    have hsound := builtArtifact_sound hentries hkir
    refine ⟨entries, kir, hentries, hkir, ?_, ?_⟩
    · intro lim'
      rw [decodeArtifact_eq_ok, hsound.version_eq]
      exact ⟨fun h => h.2.2, fun h => ⟨rfl, hsound, h⟩⟩
    · intro hcount lim' a h
      obtain ⟨hdata, ha, hwithin⟩ := decodeArtifact_eq_ok.mp h
      have hlong : (encodeArtifact T .v6 (builtArtifact entries kir)).length < 2 ^ 63 := by
        have hsize := hwithin.size
        have hmax := lim'.maxArtifactBytes.toInt_lt
        rw [hdata]
        omega
      have hversion : a.formatVersion = .v6 := by
        have hmagic := congrArg (List.take 11) hdata
        simp only [encodeArtifact, take_left' (length_magic _)] at hmagic
        revert hmagic
        cases a.formatVersion <;> decide
      rw [hversion] at hdata ha hwithin
      exact (encodeArtifact_injective hsound ha hcount hwithin.count hlong hdata).symm
  · intro data lim a h
    obtain ⟨hdata, hsound, hwithin⟩ := decodeArtifact_eq_ok.mp h
    refine ⟨hdata, hsound, hwithin, ?_⟩
    have hsize := hwithin.size
    have hmax := lim.maxArtifactBytes.toInt_lt
    rw [hdata]
    omega

end Build

/-! ## What the decoder accepts beyond the encoder -/

/-- A codec for small programs: the digest of a text is its start. -/
def plainToolchain : Toolchain Unit where
  cwd := .start true
  host := ascii "linux/amd64"
  length_host := by decide
  digest data := (data ++ List.replicate 32 0).take 32
  length_digest data := by simp
  quote text := text
  parseTokens _ _ := .ok ()
  checkAndEmit _ _ := .ok (ascii "{}")
  decodeKIR kir _ := if kir = [] then .error (ascii "empty KIR document") else .ok ()
  decodeKIR_nil := by simp

/-- A program with two modules, `a.kry` and `b.kry`. -/
def twoModules : LoadedProgram where
  source := ⟨ascii "/main.kry", ascii "import a", []⟩
  module := []
  visibilityScope := []
  modules := [⟨ascii "/a.kry", ascii "fn", []⟩, ⟨ascii "/b.kry", ascii "let", []⟩]

def entryOf (path text : String) : ArtifactEntry :=
  .make plainToolchain (ascii path) (ascii path) (ascii text)

/-- The modules may stand in another order than the encoder's; and what is encoded without a
    limit (a limit of zero) is not decoded under that limit. -/
theorem swapped_modules_accepted :
    (∃ a, decodeArtifact plainToolchain (writeArtifact plainToolchain
        [entryOf "<root>" "x", entryOf "b.kry" "let", entryOf "a.kry" "fn"] (ascii "{}")) {} =
          .ok a ∧
      writeArtifact plainToolchain
          [entryOf "<root>" "x", entryOf "b.kry" "let", entryOf "a.kry" "fn"] (ascii "{}") ≠
        writeArtifact plainToolchain (a.entries.take 1 ++ sortEntries (a.entries.drop 1)) a.kir) ∧
    (∃ data, buildArtifactWithChecker plainToolchain true twoModules (ascii "/main.kry")
        { maxArtifactBytes := 0 } = .ok data ∧
      ∀ a, decodeArtifact plainToolchain data { maxArtifactBytes := 0 } ≠ .ok a) := by
  constructor
  · refine ⟨builtArtifact [entryOf "<root>" "x", entryOf "b.kry" "let", entryOf "a.kry" "fn"]
      (ascii "{}"), ?_, ?_⟩
    all_goals decide +kernel
  · refine ⟨writeArtifact plainToolchain
      [.make plainToolchain artifactRootScope (ascii "main.kry") (ascii "import a"),
        entryOf "a.kry" "fn", entryOf "b.kry" "let"] (ascii "{}"), by decide +kernel, ?_⟩
    intro a h
    obtain ⟨hdata, -, hwithin⟩ := decodeArtifact_eq_ok.mp h
    have hsize := hwithin.size
    rw [← hdata] at hsize
    revert hsize
    decide +kernel

end Kryndel
