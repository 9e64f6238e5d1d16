import Mathlib.Data.List.Basic

/-!
# Paths

The functions of `path/filepath` on paths of Unix. A path as `Clean` leaves it is a
structure of its own (`Path`): a number of `..`, which an absolute path does not have, and
names. A Go string is a list of bytes.
-/

namespace Kryndel

open List

/-- A Go string or a slice of bytes. -/
abbrev Bytes := List UInt8

/-- The bytes of an ASCII text. -/
def ascii (text : String) : Bytes :=
  text.toList.map fun c => UInt8.ofNat c.toNat

/-- `filepath.Separator`. -/
def slash : UInt8 := 47

/-! ## Components -/

/-- A name of a file in its directory. -/
structure FileName where
  text : Bytes
  ordinary : text ≠ [] ∧ text ≠ ascii "." ∧ text ≠ ascii ".." ∧ slash ∉ text
deriving DecidableEq

/-- What stands between two separators, other than nothing and `.`. -/
inductive Component where
  | up
  | name (name : FileName)
deriving DecidableEq

def component (part : Bytes) : Option Component :=
  if part = ascii ".." then some .up
  else if h : part ≠ [] ∧ part ≠ ascii "." ∧ part ≠ ascii ".." ∧ slash ∉ part then
    some (.name ⟨part, h⟩)
  else none

/-- The components of a path, from the left. -/
def components (path : Bytes) : List Component :=
  (path.splitOn slash).filterMap component

/-- `filepath.IsAbs`. -/
def isAbs (path : Bytes) : Bool :=
  path.head? == some slash

/-- `hasParent`. -/
def hasParent (path : Bytes) : Bool :=
  (path.splitOn slash).contains (ascii "..")

/-! ## Clean paths -/

/-- A path as `filepath.Clean` leaves it. -/
structure Path where
  absolute : Bool
  /-- How many `..` the path starts with. -/
  ups : Nat
  names : List FileName
  rooted : absolute = true → ups = 0
deriving DecidableEq

namespace Path

/-- The root directory, or `.`. -/
def start (absolute : Bool) : Path :=
  ⟨absolute, 0, [], fun _ => rfl⟩

def child (path : Path) (name : FileName) : Path :=
  { path with names := path.names ++ [name] }

/-- A clean path with `..` behind it, cleaned. -/
def above (path : Path) : Path :=
  if path.names ≠ [] then { path with names := path.names.dropLast }
  else if h : path.absolute then path
  else ⟨path.absolute, path.ups + 1, [], fun habs => absurd habs h⟩

def push (path : Path) : Component → Path
  | .up => path.above
  | .name name => path.child name

/-- `filepath.Dir` of a clean path. -/
def dir (path : Path) : Path :=
  if path.names ≠ [] then { path with names := path.names.dropLast }
  else { path with ups := path.ups - 1, rooted := fun habs => by simp [path.rooted habs] }

def parts (path : Path) : List Component :=
  List.replicate path.ups .up ++ path.names.map .name

end Path

/-- `filepath.Clean`. -/
def clean (path : Bytes) : Path :=
  (components path).foldl Path.push (.start (isAbs path))

/-- `filepath.Join` of a path that is not empty and a second one. -/
def join (base path : Bytes) : Path :=
  clean (base ++ slash :: path)

/-- `filepath.Abs`, in the directory `cwd`. -/
def Path.abs (path cwd : Path) : Path :=
  if path.absolute then path else path.parts.foldl Path.push cwd

/-- What is left of two lists after the elements that they have in common at the front. -/
def dropCommon {α : Type} [DecidableEq α] : List α → List α → List α × List α
  | a :: as, b :: bs => if a = b then dropCommon as bs else (a :: as, b :: bs)
  | as, bs => (as, bs)

/-- `filepath.Rel`, cleaned. -/
def rel (base target : Path) : Option Path :=
  if base.absolute ≠ target.absolute then none
  else
    let (up, down) := dropCommon base.parts target.parts
    if up.head? = some .up then none
    else some (down.foldl Path.push ⟨false, up.length, [], by simp⟩)

/-! ## Names behind a path -/

/-- A path with names behind it. -/
def Path.extend (path : Path) (names : List FileName) : Path :=
  { path with names := path.names ++ names }

variable (path : Path)

@[simp] theorem Path.extend_nil : path.extend [] = path := by
  simp [Path.extend]

@[simp] theorem Path.extend_names (names : List FileName) :
    (path.extend names).names = path.names ++ names := rfl

@[simp] theorem Path.extend_absolute (names : List FileName) :
    (path.extend names).absolute = path.absolute := rfl

@[simp] theorem Path.extend_ups (names : List FileName) :
    (path.extend names).ups = path.ups := rfl

theorem Path.extend_extend (front back : List FileName) :
    (path.extend front).extend back = path.extend (front ++ back) := by
  simp [Path.extend]

theorem Path.child_eq_extend (name : FileName) :
    path.child name = path.extend [name] := rfl

theorem Path.extend_child (names : List FileName) (name : FileName) :
    (path.extend names).child name = path.extend (names ++ [name]) := by
  rw [Path.child_eq_extend, Path.extend_extend]

theorem Path.parts_extend (names : List FileName) :
    (path.extend names).parts = path.parts ++ names.map .name := by
  simp [Path.parts, Path.extend]

theorem Path.dir_extend (names : List FileName) (name : FileName) :
    (path.extend (names ++ [name])).dir = path.extend names := by
  have hne : (path.extend (names ++ [name])).names ≠ [] := by simp
  rw [Path.dir, if_pos hne]
  simp only [Path.extend, ← append_assoc, dropLast_concat]

theorem Path.foldl_push_names (names : List FileName) :
    (names.map Component.name).foldl Path.push path = path.extend names := by
  induction names generalizing path with
  | nil => simp
  | cons name names ih =>
    rw [map_cons, foldl_cons, ih, Path.push, Path.child_eq_extend, Path.extend_extend]
    rfl

theorem components_append (front back : Bytes) :
    components (front ++ slash :: back) = components front ++ components back := by
  rw [components, splitOn_append_cons_self, filterMap_append]
  rfl

theorem components_eq_names {path : Bytes} (h : hasParent path = false) :
    ∃ names : List FileName, components path = names.map .name := by
  have hparts : ∀ parts : List Bytes, ascii ".." ∉ parts →
      ∃ names : List FileName, parts.filterMap component = names.map .name := by
    intro parts hparts
    induction parts with
    | nil => exact ⟨[], rfl⟩
    | cons part parts ih =>
      obtain ⟨names, hnames⟩ := ih fun hmem => hparts (mem_cons_of_mem _ hmem)
      have hne : part ≠ ascii ".." := by
        rintro rfl
        exact hparts mem_cons_self
      rw [filterMap_cons, hnames, component, if_neg hne]
      split
      · rename_i hnone
        exact ⟨names, rfl⟩
      · rename_i comp hsome
        split at hsome
        · obtain rfl := Option.some.inj hsome
          exact ⟨_ :: names, rfl⟩
        · cases hsome
  apply hparts
  intro hmem
  rw [hasParent, contains_eq_mem] at h
  simp [hmem] at h

theorem join_eq_extend {base path : Bytes} (hbase : base ≠ []) (h : hasParent path = false) :
    ∃ names : List FileName, components path = names.map .name ∧
      join base path = (clean base).extend names := by
  obtain ⟨names, hnames⟩ := components_eq_names h
  refine ⟨names, hnames, ?_⟩
  have habs : isAbs (base ++ slash :: path) = isAbs base := by
    obtain ⟨b, rest, rfl⟩ := exists_cons_of_ne_nil hbase
    rfl
  rw [join, clean, habs, components_append, foldl_append, hnames, Path.foldl_push_names]
  rfl

theorem dropCommon_append {α : Type} [DecidableEq α] (front back : List α) :
    dropCommon front (front ++ back) = ([], back) := by
  induction front with
  | nil => cases back <;> rfl
  | cons a front ih => simp [dropCommon, ih]

theorem rel_extend (names : List FileName) :
    rel path (path.extend names) = some ⟨false, 0, names, by simp⟩ := by
  have hdrop := dropCommon_append path.parts (names.map Component.name)
  rw [rel, if_neg (by simp), Path.parts_extend, hdrop]
  simp only [head?_nil, reduceCtorEq, if_false, length_nil, Path.foldl_push_names]
  simp [Path.extend]

/-! ## Texts of paths -/

def Component.text : Component → Bytes
  | .up => ascii ".."
  | .name file => file.text

def Path.text (path : Path) : Bytes :=
  if path.absolute then slash :: [slash].intercalate (path.parts.map Component.text)
  else if path.parts = [] then ascii "."
  else [slash].intercalate (path.parts.map Component.text)

/-- `filepath.Ext`. -/
def ext (path : Bytes) : Bytes :=
  let dot : UInt8 := 46
  let last := (path.reverse.takeWhile (· ≠ slash))
  if dot ∈ last then ((last.takeWhile (· ≠ dot)) ++ [dot]).reverse else []

example : (rel (clean (ascii "/a/b")) (clean (ascii "/a//./c/d.kry"))).map Path.text =
    some (ascii "../c/d.kry") := by
  decide

end Kryndel
