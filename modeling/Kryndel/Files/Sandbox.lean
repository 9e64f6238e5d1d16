import Kryndel.Files.Os

/-!
# The sandbox

The operations of a restricted `Sandbox`: names are resolved to paths below its root, the
components of which are looked at one by one, before the file system is used.
-/

namespace Kryndel

/-- A restricted `Sandbox`: one is made with `Restricted: root != ""`. -/
structure Sandbox where
  root : Bytes
  named : root ≠ []

section Components

variable (host : Host)

/-- The text of the working directory. -/
def Host.workingDirectory : Path :=
  ⟨true, 0, host.cwd, fun _ => rfl⟩

/-- `within`. -/
def within (root path : Path) : Bool :=
  match rel (root.abs host.workingDirectory) (path.abs host.workingDirectory) with
  | none => false
  | some path => path.ups = 0

/-- The loop of `safeComponents`, at `cur`. -/
def safeComponentsFrom : Path → List Component → Os Bool
  | _, [] => pure true
  | cur, part :: rest => do
    match ← (lstat host (cur.push part)).attempt with
    | .ok (.symlink _ _) => pure false
    | .ok _ => safeComponentsFrom (cur.push part) rest
    | .error (.system .ENOENT) => safeComponentsFrom (cur.push part) rest
    | .error _ => pure false

/-- `safeComponents`. -/
def safeComponents (root target : Path) : Os Bool :=
  match rel root target with
  | none => pure false
  | some path => safeComponentsFrom host root path.parts

/-- A condition without which an operation is denied. -/
def allowed (condition : Os Bool) : Os Unit := do
  let ok ← condition
  Os.demand ok .denied

/-- What stands at a path is not a link: `e == nil && fi.Mode()&os.ModeSymlink != 0`. -/
def notLink (path : Path) : Os Bool := do
  match ← (lstat host path).attempt with
  | .ok (.symlink _ _) => pure false
  | _ => pure true

end Components

namespace Sandbox

variable (host : Host) (sb : Sandbox)

/-- The checks of `Sandbox.Resolve` on a path that is going to be written. -/
def writable (p : Path) : Os Unit := do
  allowed (safeComponents host (clean sb.root) p.dir)
  allowed (notLink host p)

/-- `Sandbox.Resolve`. -/
def resolve (name : Bytes) (write : Bool) : Os Path := do
  Os.demand (!name.contains 0) .containsNUL
  Os.demand (!(isAbs name || hasParent name)) .denied
  let p := join sb.root name
  Os.demand (within host (clean sb.root) p) .denied
  allowed (safeComponents host (clean sb.root) p)
  Os.when write (sb.writable host p)
  return p

/-- `Sandbox.Read`. -/
def read (name : Bytes) : Os Bytes := do
  let p ← sb.resolve host name false
  allowed (safeComponents host (clean sb.root) p)
  readFile host p

/-- `Sandbox.Mkdir`. -/
def mkdir (name : Bytes) : Os Unit := do
  Kryndel.mkdir host (← sb.resolve host name true)

/-- `Sandbox.MkdirAll`. -/
def mkdirAll (name : Bytes) : Os Unit := do
  Kryndel.mkdirAll host (← sb.resolve host name true)

/-- `Sandbox.Remove`. -/
def remove (name : Bytes) : Os Unit := do
  Kryndel.remove host (← sb.resolve host name true)

/-- `Sandbox.RemoveAll`. -/
def removeAll (name : Bytes) : Os Unit := do
  let p ← sb.resolve host name true
  Os.demand (p ≠ clean sb.root) .sandboxRoot
  Kryndel.removeAll host p

/-- `Sandbox.Rename`. -/
def rename (oldName newName : Bytes) : Os Unit := do
  let oldPath ← sb.resolve host oldName true
  let newPath ← sb.resolve host newName true
  Kryndel.rename host oldPath newPath

/-- The part of `Write` in which the temporary file is filled and renamed. -/
def fillAndRename (tmpName p : Path) (data : Bytes) : Os Unit := do
  writeFile host tmpName data
  allowed (safeComponents host (clean sb.root) p.dir)
  allowed (notLink host p)
  Kryndel.rename host tmpName p

/-- The temporary file that is filled and renamed; the deferred function removes it after a
    failure. -/
def writeThrough (p : Path) (data : Bytes) (temp : FileName) : Os Unit := do
  match ← (sb.fillAndRename host (p.dir.child temp) p data).attempt with
  | .ok () => pure ()
  | .error e => do
    let _ ← (Kryndel.remove host (p.dir.child temp)).attempt
    Os.fail e

/-- `Sandbox.Write` of a path. -/
def writeTo (p : Path) (data : Bytes) : Os Unit := do
  allowed (safeComponents host (clean sb.root) p.dir)
  Kryndel.mkdirAll host p.dir
  allowed (safeComponents host (clean sb.root) p.dir)
  let temp ← createTemp host p.dir
  sb.writeThrough host p data temp

/-- `Sandbox.Write`. -/
def write (name data : Bytes) : Os Unit := do
  let p ← sb.resolve host name true
  sb.writeTo host p data

end Sandbox

/-- The operations of a sandbox. -/
inductive Operation where
  | read (name : Bytes)
  | write (name data : Bytes)
  | mkdir (name : Bytes)
  | mkdirAll (name : Bytes)
  | remove (name : Bytes)
  | removeAll (name : Bytes)
  | rename (oldName newName : Bytes)

def Sandbox.perform (host : Host) (sb : Sandbox) : Operation → Os Unit
  | .read name => do let _ ← sb.read host name
  | .write name data => sb.write host name data
  | .mkdir name => sb.mkdir host name
  | .mkdirAll name => sb.mkdirAll host name
  | .remove name => sb.remove host name
  | .removeAll name => sb.removeAll host name
  | .rename oldName newName => sb.rename host oldName newName

/-- An effect inside of a sandbox: the path consists of the root and names, and every name
    has led to the entry of that name, as no link was followed below the root. The root itself
    may only be opened. -/
def Sandbox.Inside (host : Host) (sb : Sandbox) (before : FileTree) (e : Effect) : Prop :=
  ∃ place names, before.locate host.cwd true (clean sb.root) = .ok place ∧
    e.path = (clean sb.root).extend names ∧ e.location = place ++ names ∧
      (names = [] → e.touch = .opened)

/-- Everything that an operation touches is inside of the sandbox. -/
def Sandbox.Contained (host : Host) (sb : Sandbox) (before : FileTree) (op : Operation) : Prop :=
  ∀ e ∈ (sb.perform host op before).effects, sb.Inside host before e

end Kryndel
