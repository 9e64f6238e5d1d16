import Kryndel.Files.Sandbox
import Kryndel.Syntax.Ast

/-!
# Loading modules

A program is loaded from the file of its root module. What a module imports is looked for next
to it, and then in the root of the workspace; the modules are loaded before the one that
imports them is done, and merged into one program in the end. An editor can put texts in the
place of files.
-/

namespace Kryndel

/-- `ImportDecl`. -/
structure ImportDecl where
  path : Bytes
  tok : Token := default
deriving DecidableEq

/-- `Source`, as the loader makes it. -/
structure ModuleSource where
  name : Path
  text : Bytes
  visibilityScope : Option Path := none

/-- A `Program`, with its source and what it imports. -/
structure SourceModule where
  source : ModuleSource
  imports : List ImportDecl
  program : Program

/-- Why a program cannot be loaded. -/
inductive LoadError where
  | escapes (path : Path)
  | cycle (path : Path)
  | unreadable (path : Path) (error : FileError)
  | tooLarge (path : Path)
  | notUTF8 (path : Path)
  | parse (diagnostic : Diagnostic)
  | unsafeImport (tok : Token) (path : Bytes)
  | importEscapes (tok : Token)
  | importLink (tok : Token)
  | unresolved (tok : Token) (path : Bytes)
  /-- The recursion is cut off. -/
  | cutOff
deriving DecidableEq

/-- `ModuleLoader`, with the file system and the parser. -/
structure ModuleLoader where
  host : Host
  disk : FileTree
  lim : Limits := {}
  root : Path
  /-- The root is made with `filepath.Abs`. -/
  rooted : root.absolute = true
  /-- Texts in the place of files. -/
  overlay : List (Path × Bytes) := []
  validUTF8 : Bytes → Bool
  parse : ModuleSource → Except Diagnostic (List ImportDecl × Program)
  /-- A path as a string. -/
  pathString : Path → String

namespace ModuleLoader

variable (l : ModuleLoader)

/-! ## Files -/

/-- `fileExists`. -/
def fileExists (path : Path) : Bool :=
  match (stat l.host path l.disk).result with
  | .ok _ => true
  | .error _ => false

/-- `hasSource`. -/
def hasSource (path : Path) : Bool :=
  (l.overlay.lookup path).isSome || l.fileExists path

def isDirectory (path : Path) : Bool :=
  match (stat l.host path l.disk).result with
  | .ok .directory => true
  | _ => false

/-- `safeComponents`, below the root. -/
def safe (path : Path) : Bool :=
  match (safeComponents l.host l.root path l.disk).result with
  | .ok safe => safe
  | .error _ => false

/-- `ReadSource`. -/
def readSource (path : Path) : Except LoadError ModuleSource :=
  match (readFile l.host path l.disk).result with
  | .error e => .error (.unreadable path e)
  | .ok data =>
    if l.lim.maxSourceBytes < data.length then .error (.tooLarge path)
    else if !l.validUTF8 data then .error (.notUTF8 path)
    else .ok { name := path, text := data }

/-! ## Where imports lead -/

/-- The first part of `resolveImportPath`: without an extension, a directory stands for its
    `main.kry`, and anything else for a file with the extension. -/
def withExtension (candidate : Path) : Path :=
  if ext candidate.text = [] then
    if l.isDirectory candidate then join candidate.text (ascii "main.kry")
    else clean (candidate.text ++ ascii ".kry")
  else candidate

/-- `resolveImportPath`, the function. -/
def resolvePath (base : Path) (path : Bytes) : Path :=
  let candidate := l.withExtension (join base.text path)
  if ext candidate.text = ascii ".kry" && !l.fileExists candidate then
    let packageCandidate := join base.text (ascii "vendor/" ++ path ++ ascii "/main.kry")
    if l.fileExists packageCandidate then packageCandidate else candidate
  else candidate

/-- `resolveImportPath`, the method. -/
def resolveImportPath (base : Path) (path : Bytes) : Path :=
  let candidate := l.resolvePath base path
  if l.hasSource candidate || ext (join base.text path).text ≠ [] then candidate
  else
    let main := join base.text (path ++ ascii "/main.kry")
    if (l.overlay.lookup main).isSome then main else candidate

/-- What an import in a directory leads to: what is next to the module, or in the root. -/
def locateImport (dir : Path) (path : Bytes) : Path :=
  let candidate := l.resolveImportPath dir path
  if l.hasSource candidate then candidate else l.resolveImportPath l.root path

/-- The checks of `load` about an import of the module `path`. -/
def checkImport (path : Path) (imp : ImportDecl) : Except LoadError Path :=
  if isAbs imp.path || imp.path.contains 0 || hasParent imp.path then
    .error (.unsafeImport imp.tok imp.path)
  else
    let candidate := l.locateImport path.dir imp.path
    if !within l.host l.root candidate then .error (.importEscapes imp.tok)
    else if !l.safe candidate then .error (.importLink imp.tok)
    else if !l.hasSource candidate && !l.fileExists candidate then
      .error (.unresolved imp.tok imp.path)
    else .ok candidate

/-! ## Visibility -/

/-- The loop of `moduleVisibilityScope`, by recursion on the number of names. -/
def visibilityScopeFrom : Nat → Path → Option Path
  | 0, dir => if l.fileExists (join dir.text (ascii "kry.toml")) then some dir else none
  | n + 1, dir =>
    if l.fileExists (join dir.text (ascii "kry.toml")) then some dir
    else if dir = l.root ∨ dir.dir = dir then none
    else visibilityScopeFrom n dir.dir

/-- `moduleVisibilityScope`. -/
def moduleVisibilityScope (path : Path) : Path :=
  (l.visibilityScopeFrom path.names.length path.dir).getD path

/-- The declarations of a module know where they are visible. -/
def stamp (path : Path) (p : Program) : Program :=
  let scope := l.pathString (l.moduleVisibilityScope path)
  { p with
    module := l.pathString path
    visibilityScope := scope
    functions := p.functions.map fun f => { f with visibilityScope := scope }
    structs := p.structs.map fun s => { s with visibilityScope := scope }
    enums := p.enums.map fun e => { e with visibilityScope := scope } }

/-- The part of `load` that parses a module. -/
def parseModule (path : Path) (src : ModuleSource) : Except LoadError SourceModule :=
  match l.parse src with
  | .error d => .error (.parse d)
  | .ok parsed =>
    .ok ⟨{ src with visibilityScope := some (l.moduleVisibilityScope path) }, parsed.1,
      l.stamp path parsed.2⟩

/-- The part of `load` that reads a module. -/
def readModule (path : Path) : Except LoadError SourceModule :=
  match l.overlay.lookup path with
  | some text => l.parseModule path { name := path, text := text }
  | none => (l.readSource path).bind (l.parseModule path)

/-! ## Loading -/

/-- `Programs`: the modules that have been loaded, the last one first. -/
abbrev Programs := List (Path × SourceModule)

/-- The loop of `load`: the module that is imported is loaded. -/
def loadImport (load : Programs → Path → Except LoadError (Programs × SourceModule)) (path : Path)
    (programs : Programs) (imp : ImportDecl) : Except LoadError Programs := do
  let candidate ← l.checkImport path imp
  let loaded ← load programs candidate
  return loaded.1

/-- `load`, on the way `stack`, with a bound on the recursion. -/
def load : Nat → List Path → Programs → Path → Except LoadError (Programs × SourceModule)
  | 0, _, _, _ => .error .cutOff
  | n + 1, stack, programs, path =>
    if !within l.host l.root path then .error (.escapes path)
    else if path ∈ stack then .error (.cycle path)
    else
      match programs.lookup path with
      | some p => .ok (programs, p)
      | none => do
        let prog ← l.readModule path
        let programs ← prog.imports.foldlM (l.loadImport (load n (path :: stack)) path) programs
        return ((path, prog) :: programs, prog)

/-! ## Merging -/

/-- The implementations of a program that is appended: their methods are behind the functions
    that are there. -/
def shifted (n : Nat) (implementation : TraitImplDecl) : TraitImplDecl :=
  { implementation with methods := implementation.methods.map (n + ·) }

/-- A program that has been merged, with its sources. -/
structure Merged where
  source : ModuleSource
  imports : List ImportDecl
  sources : List ModuleSource
  program : Program

/-- The declarations of a module are appended. -/
def Merged.append (out : Merged) (q : SourceModule) : Merged :=
  { out with
    sources := out.sources ++ [q.source]
    program := { out.program with
      functions := out.program.functions ++ q.program.functions
      structs := out.program.structs ++ q.program.structs
      enums := out.program.enums ++ q.program.enums
      traits := out.program.traits ++ q.program.traits
      traitImpls := out.program.traitImpls ++
        q.program.traitImpls.map (shifted out.program.functions.length) } }

/-- The loop of `merge`: what is imported is added, unless it has been seen. -/
def addImport (programs : Programs)
    (add : List Path × Merged → SourceModule → Option (List Path × Merged)) (dir : Path)
    (st : List Path × Merged) (imp : ImportDecl) : Option (List Path × Merged) :=
  let candidate := l.locateImport dir imp.path
  if candidate ∈ st.1 then some st
  else
    match programs.lookup candidate with
    | none => some (candidate :: st.1, st.2)
    | some q => (add (candidate :: st.1, st.2) q).map fun st => (st.1, st.2.append q)

/-- The recursion of `merge`. -/
def add (programs : Programs) :
    Nat → List Path × Merged → SourceModule → Option (List Path × Merged)
  | 0, _, _ => none
  | n + 1, st, p => p.imports.foldlM (l.addImport programs (add programs n) p.source.name.dir) st

/-- `merge`, with a bound on the recursion. -/
def merge (programs : Programs) (n : Nat) (root : SourceModule) : Option Merged :=
  (l.add programs n ([root.source.name],
    ⟨root.source, root.imports, [root.source], root.program⟩) root).map Prod.snd

/-- What has been loaded is merged. -/
def mergeLoaded (n : Nat) (loaded : Programs × SourceModule) : Except LoadError Merged :=
  match l.merge loaded.1 n loaded.2 with
  | some merged => .ok merged
  | none => .error .cutOff

/-- The part of `loadProgram` behind the choice of a root: a module is loaded, and what has been
    loaded is merged. -/
def loadProgram (n : Nat) (path : Path) : Except LoadError Merged :=
  (l.load n [] [] (path.abs l.host.workingDirectory)).bind (l.mergeLoaded n)

end ModuleLoader

end Kryndel
