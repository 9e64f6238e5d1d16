import Mathlib.Data.List.Sort
import Mathlib.Data.List.Infix
import Kryndel.Files.Path
import Kryndel.Wire.LittleEndian
import Kryndel.Syntax.Source

/-!
# The artifact format

`BuildArtifactWithChecker` writes a header, the sources of a program with their digests and
its checked KIR; `DecodeArtifact` reads such a byte string, and those of three older versions
of the format.

The parser behind the lexer's first checks, the checker, the KIR encoder and decoder and
the digest are parameters (`Toolchain`).
-/

namespace Kryndel

open Wire (littleEndian ofLittleEndian)

/-! ## Data -/

/-- The limits that the codec reads (`Limits`). They are Go integers: the decoder converts
    them to unsigned ones. -/
structure CodecLimits where
  maxSourceBytes : Int64 := 16777216
  maxArtifactBytes : Int64 := 67108864
  maxImports : Int64 := 256
deriving DecidableEq

/-- `Source`. -/
structure SourceText where
  name : Bytes
  text : Bytes
  visibilityScope : Bytes
deriving DecidableEq

/-- `sourceVisibilityScope`. -/
def sourceVisibilityScope (src : SourceText) : Bytes :=
  if src.visibilityScope ≠ [] then src.visibilityScope else src.name

/-- What the codec reads of a loaded program (`Program`). The first of its sources is the
    root's own, `source`; `modules` are the others. -/
structure LoadedProgram where
  source : SourceText
  module : Bytes
  visibilityScope : Bytes
  modules : List SourceText

/-- `ArtifactEntry`. -/
structure ArtifactEntry where
  path : Bytes
  visibilityScope : Bytes
  data : Bytes
  hash : Bytes
deriving DecidableEq

/-- `Artifact`. -/
structure Artifact where
  compiler : Bytes
  target : Bytes
  languageVersion : Bytes
  entries : List ArtifactEntry
  kir : Bytes
deriving DecidableEq

/-- A diagnostic of the codec: they are all at the first character of a source, or of
    `<input>`. -/
structure CodecDiagnostic where
  category : Category
  source : Bytes
  message : Bytes
deriving DecidableEq

def codecDiag (category : Category) (source : Option SourceText) (message : Bytes) :
    CodecDiagnostic :=
  ⟨category, (source.map SourceText.name).getD (ascii "<input>"), message⟩

/-- What the codec is given by the rest of the compiler and by its host. -/
structure Toolchain (Tree : Type) where
  /-- `os.Getwd`. -/
  cwd : Path
  /-- `runtime.GOOS` and `runtime.GOARCH`, with a slash between them. -/
  host : Bytes
  length_host : host.length ≤ 64
  /-- `sha256.Sum256`. -/
  digest : Bytes → Bytes
  length_digest : ∀ data, (digest data).length = 32
  /-- `strconv.Quote`. -/
  quote : Bytes → Bytes
  /-- `Parse`, after the first two checks of the lexer. -/
  parseTokens : SourceText → CodecLimits → Except CodecDiagnostic Tree
  /-- `Check` of the program that the sources make, and `EmitKIR`. -/
  checkAndEmit : List (SourceText × Tree) → CodecLimits → Except CodecDiagnostic Bytes
  /-- The text of the error that `DecodeKIR` returns, if any. -/
  decodeKIR : Bytes → CodecLimits → Except Bytes Unit
  /-- An empty document is refused. -/
  decodeKIR_nil : ∀ lim, decodeKIR [] lim ≠ .ok ()

/-! ## Versions of the format -/

inductive FormatVersion where
  | v3 | v4 | v5 | v6
deriving DecidableEq, Repr

namespace FormatVersion

/-- `formatVersion`. -/
def number : FormatVersion → UInt32
  | .v3 => 3
  | .v4 => 4
  | .v5 => 5
  | .v6 => 6

/-- `artifactMagic` and its predecessors. -/
def magic : FormatVersion → Bytes
  | .v3 => ascii "KRYNATIVE3\x00"
  | .v4 => ascii "KRYNATIVE4\x00"
  | .v5 => ascii "KRYNATIVE5\x00"
  | .v6 => ascii "KRYNATIVE6\x00"

end FormatVersion

/-- `compilerIdentity`. -/
def compilerIdentity : Bytes :=
  ascii "kryndel-go-1.3.0"

/-- `legacyCompilerID`. -/
def legacyCompilerID : Bytes :=
  ascii "kryndel-go-1.2.0"

/-- The language's version (`LanguageVersion`). -/
def languageVersion : Bytes :=
  ascii "1.0.0"

/-- `artifactRootScope`, which is also the path of the root's entry. -/
def artifactRootScope : Bytes :=
  ascii "<root>"

def portableTarget : Bytes :=
  ascii "portable/any"

namespace FormatVersion

/-- `expectedCompiler`. -/
def compiler : FormatVersion → Bytes
  | .v3 => legacyCompilerID
  | _ => compilerIdentity

/-- `wantTarget`. -/
def target (host : Bytes) : FormatVersion → Bytes
  | .v6 => portableTarget
  | _ => host

end FormatVersion

/-! ## Checks -/

/-- `safeArtifactPath`. -/
def safeArtifactPath (p : Bytes) : Bool :=
  if p = [] || p.contains 0 || isAbs p || hasParent p then false
  else p ≠ ascii "." && p ≠ ascii ".."

/-- `safeArtifactScope`. -/
def safeArtifactScope (scope : Bytes) : Bool :=
  scope = artifactRootScope || safeArtifactPath scope

/-- A byte after the first of an encoded character. -/
def continuation (b : UInt8) : Bool :=
  0x80 ≤ b && b ≤ 0xBF

/-- `utf8.Valid`. -/
def validUTF8 : Bytes → Bool
  | [] => true
  | a :: rest =>
    if a < 0x80 then validUTF8 rest
    else match rest with
      | [] => false
      | b :: rest =>
        if 0xC2 ≤ a && a ≤ 0xDF then continuation b && validUTF8 rest
        else match rest with
          | [] => false
          | c :: rest =>
            if 0xE0 ≤ a && a ≤ 0xEF then
              (if a = 0xE0 then 0xA0 else 0x80) ≤ b && b ≤ (if a = 0xED then 0x9F else 0xBF) &&
                continuation c && validUTF8 rest
            else match rest with
              | [] => false
              | d :: rest =>
                0xF0 ≤ a && a ≤ 0xF4 &&
                  (if a = 0xF0 then 0x90 else 0x80) ≤ b && b ≤ (if a = 0xF4 then 0x8F else 0xBF) &&
                  continuation c && continuation d && validUTF8 rest

/-- A part of a version: digits without leading zeros for a number of 32 bits. -/
def validVersionPart (part : Bytes) : Bool :=
  part ≠ [] && !(1 < part.length && part.head? == some 48) &&
    part.all (fun b => 48 ≤ b && b ≤ 57) &&
    part.foldl (fun n b => 10 * n + (b.toNat - 48)) 0 < 2 ^ 32

/-- `validLanguageVersion`. -/
def validLanguageVersion (version : Bytes) : Bool :=
  let parts := version.splitOn 46
  parts.length = 3 && parts.all validVersionPart

/-- `checkLanguageVersion`. -/
def checkLanguageVersion (quote : Bytes → Bytes) (version : Bytes) : Except Bytes Unit :=
  if !validLanguageVersion version then
    throw (ascii "language_version " ++ quote version ++ ascii " must use MAJOR.MINOR.PATCH")
  else if version ≠ languageVersion then
    throw (ascii "unsupported language_version " ++ quote version ++
      ascii "; this compiler supports " ++ languageVersion)
  else pure ()

/-! ## Readers -/

/-- `bytes.Reader.Read` into a buffer of `n` bytes, with what it read and what remains. At
    the end of the input it fails, also for an empty buffer. -/
def readBytes (n : Nat) (r : Bytes) : Option (Bytes × Bytes) :=
  if r = [] then none else some (r.take n, r.drop n)

/-- `Read`, refused when it does not fill the buffer. -/
def readFull (n : Nat) (r : Bytes) : Option (Bytes × Bytes) :=
  (readBytes n r).filter fun p => p.1.length = n

/-- `readU32`. The buffer starts with zeros, and a short read is not refused. -/
def readU32 (r : Bytes) : Option (UInt32 × Bytes) :=
  (readBytes 4 r).map fun p => (UInt32.ofNat (ofLittleEndian p.1), p.2)

/-- `readU64`. -/
def readU64 (r : Bytes) : Option (UInt64 × Bytes) :=
  (readBytes 8 r).map fun p => (UInt64.ofNat (ofLittleEndian p.1), p.2)

/-- `readString`. -/
def readString (max : Int64) (r : Bytes) : Option (Bytes × Bytes) := do
  let (n, r) ← readU64 r
  if max.toUInt64 < n || UInt64.ofNat r.length < n then none
  else readBytes n.toNat r

/-- A length that is followed by a digest and by as many bytes. -/
def readSize (max : Int64) (r : Bytes) : Option (UInt64 × Bytes) := do
  let (size, r) ← readU64 r
  if max.toUInt64 < size || UInt64.ofNat r.length < 32 || UInt64.ofNat r.length - 32 < size then
    none
  else some (size, r)

/-! ## The decoder -/

/-- What was read, or else a diagnostic with `malformed native artifact: ` before its
    text. -/
def orMalformed {α : Type} (read : Option α) (text : Bytes) : Except CodecDiagnostic α :=
  match read with
  | some value => .ok value
  | none => .error (codecDiag .artifact none (ascii "malformed native artifact: " ++ text))

/-- A check that was passed, or else the diagnostic of `orMalformed`. -/
def checked (condition : Bool) (text : Bytes) : Except CodecDiagnostic Unit :=
  orMalformed (if condition then some () else none) text

section Decode

variable {Tree : Type} (T : Toolchain Tree)

/-- The version that a header names. -/
def versionOf (magic : Bytes) : Option FormatVersion :=
  if magic = FormatVersion.magic .v6 then some .v6
  else if magic = FormatVersion.magic .v5 then some .v5
  else if magic = FormatVersion.magic .v4 then some .v4
  else if magic = FormatVersion.magic .v3 then some .v3
  else none

/-- The header up to the version, twice given. -/
def decodeVersion (r : Bytes) : Except CodecDiagnostic (FormatVersion × Bytes) := do
  let (magic, r) ← orMalformed (readFull 11 r) (ascii "truncated header")
  let version ← orMalformed (versionOf magic) (ascii "invalid header")
  let (number, r) ← orMalformed (readU32 r) (ascii "unsupported version")
  checked (number = version.number) (ascii "unsupported version")
  return (version, r)

/-- The compiler, which must be the one of the version. -/
def decodeCompiler (version : FormatVersion) (r : Bytes) :
    Except CodecDiagnostic (Bytes × Bytes) := do
  let text := ascii "incompatible compiler or invalid length"
  let (compiler, r) ← orMalformed (readString 256 r) text
  checked (compiler = version.compiler) text
  return (compiler, r)

/-- The language's version, from the fourth version of the format on. -/
def decodeLanguageVersion (version : FormatVersion) (r : Bytes) :
    Except CodecDiagnostic (Bytes × Bytes) :=
  if 4 ≤ version.number then do
    let (language, r) ← orMalformed (readString 64 r) (ascii "invalid language version")
    match checkLanguageVersion T.quote language with
    | .ok () => return (language, r)
    | .error text => orMalformed none text
  else .ok (languageVersion, r)

/-- The tag and the target. -/
def decodeTarget (version : FormatVersion) (r : Bytes) :
    Except CodecDiagnostic (Bytes × Bytes) := do
  let (tag, r) ← orMalformed (readFull 3 r) (ascii "invalid header tag or length")
  checked (tag = ascii "KRY") (ascii "invalid header tag or length")
  let (target, r) ← orMalformed (readString 64 r) (ascii "incompatible target")
  checked (target = version.target T.host) (ascii "incompatible target")
  return (target, r)

/-- The number of entries. `lim.MaxImports+1` wraps around. -/
def decodeCount (lim : CodecLimits) (r : Bytes) : Except CodecDiagnostic (UInt32 × Bytes) := do
  let (n, r) ← orMalformed (readU32 r) (ascii "invalid entry count")
  checked (n ≠ 0 && (n.toNat : Int) ≤ (lim.maxImports + 1).toInt) (ascii "invalid entry count")
  return (n, r)

/-- The visibility scope of an entry, from the fifth version of the format on. -/
def decodeScope (version : FormatVersion) (lim : CodecLimits) (r : Bytes) :
    Except CodecDiagnostic (Bytes × Bytes) :=
  if 5 ≤ version.number then do
    let text := ascii "unsafe module visibility scope"
    let (scope, r) ← orMalformed (readString lim.maxSourceBytes r) text
    checked (safeArtifactScope scope) text
    return (scope, r)
  else .ok ([], r)

/-- The path of the `i`-th entry, behind the entries with the paths `seen`. -/
def decodePath (lim : CodecLimits) (i : Nat) (seen : List Bytes) (r : Bytes) :
    Except CodecDiagnostic (Bytes × Bytes) := do
  let (path, r) ← orMalformed (readString lim.maxSourceBytes r) (ascii "unsafe path")
  checked (safeArtifactPath path || path = artifactRootScope) (ascii "unsafe path")
  checked (!(i = 0 && path ≠ artifactRootScope)) (ascii "root entry must be first")
  checked (!(0 < i && path = artifactRootScope)) (ascii "duplicate root entry")
  checked (path ∉ seen) (ascii "duplicate entry")
  return (path, r)

/-- An entry's data, behind its digest. -/
def decodeData (lim : CodecLimits) (r : Bytes) :
    Except CodecDiagnostic ((Bytes × Bytes) × Bytes) := do
  let (size, r) ← orMalformed (readSize lim.maxSourceBytes r) (ascii "invalid length")
  let (hash, r) ← orMalformed (readFull 32 r) (ascii "truncated hash")
  let (payload, r) ← orMalformed (readFull size.toNat r) (ascii "truncated data")
  checked (T.digest payload = hash) (ascii "invalid hash")
  checked (validUTF8 payload) (ascii "invalid UTF-8")
  return ((payload, hash), r)

def decodeEntry (version : FormatVersion) (lim : CodecLimits) (i : Nat) (seen : List Bytes)
    (r : Bytes) : Except CodecDiagnostic (ArtifactEntry × Bytes) := do
  let (path, r) ← decodePath lim i seen r
  let (scope, r) ← decodeScope version lim r
  let ((data, hash), r) ← decodeData T lim r
  return (⟨path, scope, data, hash⟩, r)

/-- The loop over the entries: `n` of them, the first of which is the `i`-th. -/
def decodeEntries (version : FormatVersion) (lim : CodecLimits) :
    Nat → Nat → List Bytes → Bytes → Except CodecDiagnostic (List ArtifactEntry × Bytes)
  | 0, _, _, r => .ok ([], r)
  | n + 1, i, seen, r => do
    let (entry, r) ← decodeEntry T version lim i seen r
    let (entries, r) ← decodeEntries version lim n (i + 1) (entry.path :: seen) r
    return (entry :: entries, r)

/-- How an error of `DecodeKIR` is reported. -/
def kirDiagnostic (text : Bytes) : CodecDiagnostic :=
  if ascii "instruction limit" <:+: text then
    codecDiag .resource none (ascii "IR instruction limit exceeded")
  else codecDiag .artifact none (ascii "malformed native artifact: invalid KIR: " ++ text)

/-- The KIR, from the sixth version of the format on. -/
def decodeKIRSection (version : FormatVersion) (lim : CodecLimits) (r : Bytes) :
    Except CodecDiagnostic (Bytes × Bytes) :=
  if 6 ≤ version.number then do
    let (size, r) ← orMalformed (readSize lim.maxArtifactBytes r) (ascii "invalid KIR length")
    let (hash, r) ← orMalformed (readFull 32 r) (ascii "truncated KIR hash")
    let (kir, r) ← orMalformed (readFull size.toNat r) (ascii "truncated KIR")
    checked (T.digest kir = hash) (ascii "invalid KIR hash")
    match T.decodeKIR kir lim with
    | .ok () => return (kir, r)
    | .error text => throw (kirDiagnostic text)
  else .ok ([], r)

/-- `DecodeArtifact`. -/
def decodeArtifact (data : Bytes) (lim : CodecLimits) : Except CodecDiagnostic Artifact := do
  if lim.maxArtifactBytes.toInt < data.length then
    throw (codecDiag .resource none (ascii "artifact exceeds configured input size limit"))
  let (version, r) ← decodeVersion data
  let (compiler, r) ← decodeCompiler version r
  let (language, r) ← decodeLanguageVersion T version r
  let (target, r) ← decodeTarget T version r
  let (n, r) ← decodeCount lim r
  let (entries, r) ← decodeEntries T version lim n.toNat 0 [] r
  let (kir, r) ← decodeKIRSection T version lim r
  checked (r = []) (ascii "trailing bytes")
  checked ((entries.head?.map ArtifactEntry.path) = some artifactRootScope) (ascii "missing root")
  return ⟨compiler, target, language, entries, kir⟩

end Decode

/-! ## The encoder -/

/-- `writeU32`. -/
def writeU32 (x : UInt32) : Bytes :=
  littleEndian 4 x.toNat

/-- `writeU64`. -/
def writeU64 (x : UInt64) : Bytes :=
  littleEndian 8 x.toNat

/-- `writeString`. -/
def writeString (s : Bytes) : Bytes :=
  writeU64 (UInt64.ofNat s.length) ++ s

section Encode

variable {Tree : Type} (T : Toolchain Tree)

/-- `relativeArtifactScope`. -/
def relativeArtifactScope (base : Path) (scope : Bytes) : Except Bytes Bytes :=
  if scope = artifactRootScope then .ok artifactRootScope
  else
    let scope := if isAbs scope then clean scope else join base.text scope
    match rel base (scope.abs T.cwd) with
    | none => .error (ascii "scope escapes artifact root")
    | some path =>
      if path.ups ≠ 0 then .error (ascii "scope escapes artifact root")
      else if path.names = [] then .ok artifactRootScope
      else if !safeArtifactPath path.text then .error (ascii "unsafe module scope")
      else .ok path.text

/-- `relativeArtifactScope`, with the diagnostic that its callers report. -/
def scopeInside (base : Path) (source : SourceText) (scope : Bytes) :
    Except CodecDiagnostic Bytes :=
  match relativeArtifactScope T base scope with
  | .ok scope => .ok scope
  | .error _ =>
    .error (codecDiag .artifact (some source)
      (ascii "module visibility scope is outside artifact root"))

/-- The path under which a module is stored. -/
def modulePath (base : Path) (source : SourceText) : Except CodecDiagnostic Bytes :=
  match rel base (clean source.name) with
  | none =>
    .error (codecDiag .artifact (some source) (ascii "module path is outside artifact root"))
  | some path =>
    if path.ups ≠ 0 then
      .error (codecDiag .artifact (some source) (ascii "module path is outside artifact root"))
    else
      let path := if ext path.text = [] then path.text ++ ascii ".kry" else path.text
      if !safeArtifactPath path then
        .error (codecDiag .artifact (some source)
          (ascii "unsafe artifact path '" ++ path ++ ascii "'"))
      else .ok path

/-- An entry with its digest. -/
def ArtifactEntry.make (path scope data : Bytes) : ArtifactEntry :=
  ⟨path, scope, data, T.digest data⟩

/-- The loop over the modules, behind the entries with the paths `seen`. -/
def moduleEntries (base : Path) :
    List Bytes → List SourceText → Except CodecDiagnostic (List ArtifactEntry)
  | _, [] => .ok []
  | seen, source :: sources => do
    let path ← modulePath base source
    let scope ← scopeInside T base source (sourceVisibilityScope source)
    if path ∈ seen then moduleEntries base seen sources
    else
      let entries ← moduleEntries base (path :: seen) sources
      return .make T path scope source.text :: entries

/-- The modules in the order of their paths. -/
def sortEntries (entries : List ArtifactEntry) : List ArtifactEntry :=
  entries.insertionSort fun a b => a.path ≤ b.path

/-- The entries of a program: the root's, and those of its modules in order. -/
def artifactEntries (prog : LoadedProgram) (root : Bytes) :
    Except CodecDiagnostic (List ArtifactEntry) := do
  let base := ((clean root).abs T.cwd).dir
  let rootScope := sourceVisibilityScope prog.source
  let rootScope := if rootScope = [] then prog.visibilityScope else rootScope
  let rootScope := if rootScope = [] then prog.module else rootScope
  let scope ← scopeInside T base prog.source rootScope
  let modules ← moduleEntries T base [artifactRootScope] prog.modules
  return .make T artifactRootScope scope prog.source.text :: sortEntries modules

/-- `Parse`, with the lexer's first two checks. -/
def parseSource (src : SourceText) (lim : CodecLimits) : Except CodecDiagnostic Tree :=
  if lim.maxSourceBytes.toInt < src.text.length then
    .error (codecDiag .resource (some src) (ascii "source exceeds configured input size limit"))
  else if !validUTF8 src.text then
    .error (codecDiag .lex (some src) (ascii "source is not valid UTF-8"))
  else T.parseTokens src lim

/-- `ProgramFromArtifact`: the sources of an artifact, parsed. -/
def programFromArtifact (entries : List ArtifactEntry) (lim : CodecLimits) :
    Except CodecDiagnostic (List (SourceText × Tree)) :=
  match entries with
  | [] => .error (codecDiag .artifact none (ascii "malformed native artifact: missing root"))
  | root :: modules =>
    let sources := ⟨ascii "<artifact-root>", root.data, root.visibilityScope⟩ ::
      modules.map fun entry => (⟨entry.path, entry.data, entry.visibilityScope⟩ : SourceText)
    sources.mapM fun source => do
      let tree ← parseSource T source lim
      return (source, tree)

/-- The checked KIR of the entries, as it is emitted, provided that it can be decoded. -/
def checkedKIR (prog : LoadedProgram) (entries : List ArtifactEntry) (lim : CodecLimits) :
    Except CodecDiagnostic Bytes := do
  let program ← programFromArtifact T entries lim
  let kir ← T.checkAndEmit program lim
  match T.decodeKIR kir lim with
  | .ok () => return kir
  | .error text =>
    throw (codecDiag .artifact (some prog.source) (ascii "invalid checked KIR: " ++ text))

def writeEntry (entry : ArtifactEntry) : Bytes :=
  writeString entry.path ++ writeString entry.visibilityScope ++
    writeU64 (UInt64.ofNat entry.data.length) ++ entry.hash ++ entry.data

/-- What `BuildArtifactWithChecker` writes. -/
def writeArtifact (entries : List ArtifactEntry) (kir : Bytes) : Bytes :=
  FormatVersion.magic .v6 ++ writeU32 6 ++ writeString compilerIdentity ++
    writeString languageVersion ++ ascii "KRY" ++ writeString portableTarget ++
    writeU32 (UInt32.ofNat entries.length) ++ entries.flatMap writeEntry ++
    writeU64 (UInt64.ofNat kir.length) ++ T.digest kir ++ kir

/-- `BuildArtifactWithChecker`. `own` says that the checker is there and was made for the
    program. -/
def buildArtifactWithChecker (own : Bool) (prog : LoadedProgram) (root : Bytes)
    (lim : CodecLimits) : Except CodecDiagnostic Bytes := do
  if !own then
    throw (codecDiag .artifact none
      (ascii "cannot build artifact without its checked program"))
  let entries ← artifactEntries T prog root
  let kir ← checkedKIR T prog entries lim
  let data := writeArtifact T entries kir
  if 0 < lim.maxArtifactBytes && lim.maxArtifactBytes.toInt < data.length then
    throw (codecDiag .resource (some prog.source)
      (ascii "artifact exceeds configured output size limit"))
  return data

end Encode

end Kryndel
