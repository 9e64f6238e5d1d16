import Kryndel.Files.Disk

/-!
# Programs that use a file system

The functions of Go's package `os` on a directory tree, with what they touch on the way: every
effect names the path that the program gave and the location that it led to.
-/

namespace Kryndel

/-! ## Programs -/

/-- Why a file operation fails. -/
inductive FileError where
  | system (errno : Errno)
  | containsNUL
  | denied
  | sandboxRoot
deriving DecidableEq

inductive Touch where
  | opened | created | changed | removed
deriving DecidableEq

/-- Something that a program has touched. What is removed is removed with all that is
    below it. -/
structure Effect where
  touch : Touch
  path : Path
  location : Location
deriving DecidableEq

structure Outcome (α : Type) where
  result : Except FileError α
  disk : FileTree
  effects : List Effect

/-- Programs that use the file system, alone. -/
def Os (α : Type) : Type :=
  FileTree → Outcome α

namespace Os

variable {α β : Type}

instance : Monad Os where
  pure a := fun disk => ⟨.ok a, disk, []⟩
  bind m f := fun disk =>
    match (m disk).result with
    | .ok a =>
      let next := f a (m disk).disk
      ⟨next.result, next.disk, (m disk).effects ++ next.effects⟩
    | .error e => ⟨.error e, (m disk).disk, (m disk).effects⟩

def fail (e : FileError) : Os α :=
  fun disk => ⟨.error e, disk, []⟩

/-- Fails unless a condition holds. -/
def demand (condition : Bool) (e : FileError) : Os Unit :=
  if condition then pure () else fail e

def when (condition : Bool) (m : Os Unit) : Os Unit :=
  if condition then m else pure ()

/-- The result of a program as a value. -/
def attempt (m : Os α) : Os (Except FileError α) :=
  fun disk => ⟨.ok (m disk).result, (m disk).disk, (m disk).effects⟩

end Os

/-! ## Running programs -/

namespace Os

variable {α β : Type} {m : Os α} {f : α → Os β} {disk : FileTree}

theorem bind_ok {a : α} (h : (m disk).result = .ok a) :
    (m >>= f) disk = ⟨(f a (m disk).disk).result, (f a (m disk).disk).disk,
      (m disk).effects ++ (f a (m disk).disk).effects⟩ := by
  show (match (m disk).result with | .ok a => _ | .error e => _) = _
  rw [h]

theorem bind_error {e : FileError} (h : (m disk).result = .error e) :
    (m >>= f) disk = ⟨.error e, (m disk).disk, (m disk).effects⟩ := by
  show (match (m disk).result with | .ok a => _ | .error e => _) = _
  rw [h]

variable {e : Effect}

theorem mem_effects_bind :
    e ∈ ((m >>= f) disk).effects ↔ e ∈ (m disk).effects ∨
      ∃ a, (m disk).result = .ok a ∧ e ∈ (f a (m disk).disk).effects := by
  cases h : (m disk).result with
  | error err => simp [bind_error h]
  | ok a => simp [bind_ok h]

/-- A program that only looks at the file system. -/
def Looks (m : Os α) : Prop :=
  ∀ disk, (m disk).disk = disk ∧ (m disk).effects = []

theorem looks_pure (a : α) : Looks (pure a : Os α) := fun _ => ⟨rfl, rfl⟩

theorem looks_fail (e : FileError) : Looks (fail e : Os α) := fun _ => ⟨rfl, rfl⟩

theorem Looks.attempt (h : Looks m) : Looks m.attempt := h

theorem Looks.bind_ok (h : Looks m) {a : α} (hresult : (m disk).result = .ok a) :
    (m >>= f) disk = f a disk := by
  rw [Os.bind_ok hresult, (h disk).1, (h disk).2]
  rfl

theorem Looks.bind_error (h : Looks m) {e : FileError} (hresult : (m disk).result = .error e) :
    (m >>= f) disk = ⟨.error e, disk, []⟩ := by
  rw [Os.bind_error hresult, (h disk).1, (h disk).2]

theorem Looks.bind (h : Looks m) (hf : ∀ a, Looks (f a)) : Looks (m >>= f) := by
  intro disk
  cases hresult : (m disk).result with
  | error e => rw [h.bind_error hresult]; exact ⟨rfl, rfl⟩
  | ok a => rw [h.bind_ok hresult]; exact hf a disk

theorem Looks.not_mem (h : Looks m) : e ∉ (m disk).effects := by
  rw [(h disk).2]
  exact List.not_mem_nil

theorem Looks.mem_effects (h : Looks m) :
    e ∈ ((m >>= f) disk).effects ↔
      ∃ a, (m disk).result = .ok a ∧ e ∈ (f a disk).effects := by
  rw [mem_effects_bind, (h disk).1]
  simp [h.not_mem]

theorem Looks.result_eq_ok (h : Looks m) {b : β} :
    ((m >>= f) disk).result = .ok b ↔
      ∃ a, (m disk).result = .ok a ∧ (f a disk).result = .ok b := by
  cases hresult : (m disk).result with
  | error e => simp [h.bind_error hresult]
  | ok a => simp [h.bind_ok hresult]

/-- While an invariant of the file system holds, a program keeps it and touches only what is
    good. -/
def Keeps (inv : FileTree → Prop) (good : Effect → Prop) (m : Os α) : Prop :=
  ∀ disk, inv disk → (∀ e ∈ (m disk).effects, good e) ∧ inv (m disk).disk

variable {inv : FileTree → Prop} {good : Effect → Prop}

theorem Looks.keeps (h : Looks m) : Keeps inv good m := by
  intro disk hinv
  rw [(h disk).1, (h disk).2]
  exact ⟨by simp, hinv⟩

theorem Keeps.attempt (h : Keeps inv good m) : Keeps inv good m.attempt := h

theorem Keeps.bind (h : Keeps inv good m) (hf : ∀ a, Keeps inv good (f a)) :
    Keeps inv good (m >>= f) := by
  intro disk hinv
  obtain ⟨hgood, hinv'⟩ := h disk hinv
  cases hresult : (m disk).result with
  | error e => rw [Os.bind_error hresult]; exact ⟨hgood, hinv'⟩
  | ok a =>
    obtain ⟨hgood', hinv''⟩ := hf a _ hinv'
    rw [Os.bind_ok hresult]
    refine ⟨?_, hinv''⟩
    intro e he
    rcases List.mem_append.mp he with he | he
    · exact hgood e he
    · exact hgood' e he

/-- The last part of a program need not keep the invariant. -/
def Ends (inv : FileTree → Prop) (good : Effect → Prop) (m : Os α) : Prop :=
  ∀ disk, inv disk → ∀ e ∈ (m disk).effects, good e

theorem Ends.after (h : Keeps inv good m) (hf : ∀ a, Ends inv good (f a)) :
    Ends inv good (m >>= f) := by
  intro disk hinv e he
  rcases mem_effects_bind.mp he with he | he
  · exact (h disk hinv).1 e he
  · obtain ⟨a, -, he⟩ := he
    exact hf a _ (h disk hinv).2 e he

end Os

/-! ## The package `os` -/

/-- What a program knows of the machine it runs on. -/
structure Host where
  /-- The working directory. -/
  cwd : Location
  /-- The names that `os.CreateTemp` draws. -/
  tempName : Nat → FileName
  /-- Writing fails, as on a full disk. -/
  full : Bool

section Package

variable (host : Host)

def locateIn (follow : Bool) (path : Path) (disk : FileTree) : Except Errno Location :=
  disk.locate host.cwd follow path

/-- What stands where a path leads to. -/
def statAt (follow : Bool) (path : Path) : Os Kind := fun disk =>
  match locateIn host follow path disk with
  | .error e => Os.fail (.system e) disk
  | .ok place =>
    match disk.kindAt place with
    | none => Os.fail (.system .ENOENT) disk
    | some kind => ⟨.ok kind, disk, []⟩

/-- `os.Lstat`. -/
def lstat (path : Path) : Os Kind :=
  statAt host false path

/-- `os.Stat`. -/
def stat (path : Path) : Os Kind :=
  statAt host true path

/-- `os.Open`. -/
def openPath (path : Path) : Os Unit := fun disk =>
  match locateIn host true path disk with
  | .error e => Os.fail (.system e) disk
  | .ok place =>
    if disk.kindAt place = none then Os.fail (.system .ENOENT) disk
    else ⟨.ok (), disk, [⟨.opened, path, place⟩]⟩

/-- `os.ReadFile`: a directory is opened before reading it fails. -/
def readFile (path : Path) : Os Bytes := do
  openPath host path
  fun disk =>
    match locateIn host true path disk with
    | .error e => Os.fail (.system e) disk
    | .ok place =>
      match disk.get place with
      | some (.file data) => ⟨.ok data, disk, []⟩
      | _ => Os.fail (.system .EISDIR) disk

/-- Puts a new node where nothing is yet. -/
def create (path : Path) (node : FileTree) : Os Unit := fun disk =>
  if path.names = [] then Os.fail (.system .EEXIST) disk
  else
    match locateIn host false path disk with
    | .error e => Os.fail (.system e) disk
    | .ok place =>
      if disk.kindAt place = none then
        ⟨.ok (), disk.put place (some node), [⟨.created, path, place⟩]⟩
      else Os.fail (.system .EEXIST) disk

/-- `os.Mkdir`. -/
def mkdir (path : Path) : Os Unit :=
  create host path (.directory [])

/-- Whether `os.MkdirAll` recurses: the text of the path has something in front of its last
    name. -/
def hasParentText (path : Path) : Bool :=
  path.absolute || path.ups ≠ 0 || 1 < path.names.length

/-- `os.MkdirAll` does nothing about a directory and fails about anything else. -/
def whenMissing (path : Path) (make : Os Unit) : Os Unit := do
  match ← (stat host path).attempt with
  | .ok .directory => pure ()
  | .ok _ => Os.fail (.system .ENOTDIR)
  | .error _ => make

/-- The last part of `os.MkdirAll`. -/
def mkdirLast (path : Path) : Os Unit := do
  match ← (mkdir host path).attempt with
  | .ok () => pure ()
  | .error e =>
    match ← (lstat host path).attempt with
    | .ok .directory => pure ()
    | _ => Os.fail e

/-- `os.MkdirAll`, by recursion on the number of names. -/
def mkdirAllFrom : Nat → Path → Os Unit
  | 0, path => whenMissing host path (mkdirLast host path)
  | n + 1, path => whenMissing host path do
    Os.when (hasParentText path) (mkdirAllFrom n path.dir)
    mkdirLast host path

/-- `os.MkdirAll`. -/
def mkdirAll (path : Path) : Os Unit :=
  mkdirAllFrom host path.names.length path

/-- The loop of `os.CreateTemp` from its `k`-th name on. -/
def createTempFrom (dir : Path) : Nat → Nat → Os FileName
  | _, 0 => Os.fail (.system .EEXIST)
  | k, tries + 1 => do
    match ← (create host (dir.child (host.tempName k)) (.file [])).attempt with
    | .ok () => pure (host.tempName k)
    | .error (.system .EEXIST) => createTempFrom dir (k + 1) tries
    | .error e => Os.fail e

/-- `os.CreateTemp`: up to 10000 names are tried. -/
def createTemp (dir : Path) : Os FileName :=
  createTempFrom host dir 0 10000

/-- Writing into a file that has just been created. -/
def writeFile (path : Path) (data : Bytes) : Os Unit := fun disk =>
  match locateIn host false path disk with
  | .error e => Os.fail (.system e) disk
  | .ok place =>
    if host.full || disk.kindAt place ≠ some .file then Os.fail (.system .ENOSPC) disk
    else ⟨.ok (), disk.put place (some (.file data)), [⟨.changed, path, place⟩]⟩

/-- `os.Remove`. -/
def remove (path : Path) : Os Unit := fun disk =>
  if path.names = [] then Os.fail (.system .EINVAL) disk
  else
    match locateIn host false path disk with
    | .error e => Os.fail (.system e) disk
    | .ok place =>
      match disk.get place with
      | none => Os.fail (.system .ENOENT) disk
      | some node =>
        if node.entries = [] then ⟨.ok (), disk.put place none, [⟨.removed, path, place⟩]⟩
        else Os.fail (.system .ENOTEMPTY) disk

/-- Removes a node and all that is below it. Links below it are removed, not followed. -/
def removeTree (path : Path) : Os Unit := fun disk =>
  match locateIn host false path disk with
  | .error e => Os.fail (.system e) disk
  | .ok place =>
    if disk.kindAt place = none then Os.fail (.system .ENOENT) disk
    else ⟨.ok (), disk.put place none, [⟨.removed, path, place⟩]⟩

/-- `os.RemoveAll`, for a path with names. -/
def removeAll (path : Path) : Os Unit := do
  Os.demand (path.names ≠ []) (.system .EINVAL)
  match ← (remove host path).attempt with
  | .ok () => pure ()
  | .error (.system .ENOENT) => pure ()
  | .error _ =>
    match ← (openPath host path.dir).attempt with
    | .ok () => removeTree host path
    | .error (.system .ENOENT) => pure ()
    | .error e => Os.fail e

/-- The system call `rename`, where the new path does not lead to a directory. -/
def renameCall (old new : Path) : Os Unit := fun disk =>
  if old.names = [] || new.names = [] then Os.fail (.system .EINVAL) disk
  else
    match locateIn host false old disk, locateIn host false new disk with
    | .error e, _ => Os.fail (.system e) disk
    | _, .error e => Os.fail (.system e) disk
    | .ok source, .ok target =>
      match disk.get source, disk.kindAt target with
      | none, _ => Os.fail (.system .ENOENT) disk
      | some node, kind =>
        if source = target then ⟨.ok (), disk, []⟩
        else if source <+: target then Os.fail (.system .EINVAL) disk
        else if kind = some .directory then Os.fail (.system .EEXIST) disk
        else if node.kind = .directory && kind ≠ none then Os.fail (.system .ENOTDIR) disk
        else ⟨.ok (), (disk.put source none).put target (some node),
          [⟨.removed, old, source⟩, ⟨.created, new, target⟩]⟩

/-- Two paths lead to the same place (`os.SameFile`). -/
def sameFile (old new : Path) : Os Bool := fun disk =>
  ⟨.ok (locateIn host false old disk = locateIn host false new disk), disk, []⟩

/-- `os.Rename`. -/
def rename (old new : Path) : Os Unit := do
  match ← (lstat host new).attempt with
  | .ok .directory => do
    let _ ← lstat host old
    let same ← sameFile host old new
    Os.demand (old ≠ new && same) (.system .EEXIST)
    renameCall host old new
  | _ => renameCall host old new

end Package

end Kryndel
