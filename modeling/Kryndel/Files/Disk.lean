import Mathlib.Data.List.Lookmap
import Mathlib.Data.List.Infix
import Kryndel.Files.Path

/-!
# A file system

A directory tree with symbolic links. A location is a list of names from the root of the
tree, with directories all along it but at its end; what a path leads to is found by walking
along its components and through the links on the way.
-/

namespace Kryndel

open List

/-! ## Trees -/

/-- A place in a directory tree, below its root. -/
abbrev Location := List FileName

inductive FileTree where
  | file (data : Bytes)
  | symlink (absolute : Bool) (target : List Component)
  | directory (entries : List (FileName × FileTree))

inductive Kind where
  | file
  | symlink (absolute : Bool) (target : List Component)
  | directory
deriving DecidableEq

/-- Why the file system refuses something. -/
inductive Errno where
  | ENOENT | EEXIST | ENOTDIR | EISDIR | ENOTEMPTY | ENOSPC | EINVAL | ELOOP
deriving DecidableEq

namespace FileTree

def kind : FileTree → Kind
  | .file _ => .file
  | .symlink absolute target => .symlink absolute target
  | .directory _ => .directory

def entries : FileTree → List (FileName × FileTree)
  | .directory entries => entries
  | _ => []

def get : FileTree → Location → Option FileTree
  | node, [] => some node
  | node, name :: rest => (node.entries.lookup name).bind fun child => child.get rest

/-- What kind of node stands at a location, if any. -/
def kindAt (node : FileTree) (place : Location) : Option Kind :=
  (node.get place).map kind

/-- A directory's entries with something else, or nothing, under a name. -/
def replaceEntry (entries : List (FileName × FileTree)) (name : FileName)
    (value : Option FileTree) :
    List (FileName × FileTree) :=
  (value.map (name, ·)).toList ++ entries.filter fun entry => entry.1 ≠ name

/-- The tree with something else, or nothing, at a location below its root. -/
def put : FileTree → Location → Option FileTree → FileTree
  | node, [], _ => node
  | node, [name], value => .directory (replaceEntry node.entries name value)
  | node, name :: next :: rest, value =>
    .directory (replaceEntry node.entries name
      ((node.entries.lookup name).map fun child => child.put (next :: rest) value))

/-! ## What stands where -/

attribute [local simp] kindAt kind get in
@[simp] theorem kindAt_nil (node : FileTree) : node.kindAt [] = some node.kind := rfl

theorem kindAt_cons (node : FileTree) (name : FileName) (rest : Location) :
    node.kindAt (name :: rest) = (node.entries.lookup name).bind fun child =>
      child.kindAt rest := by
  cases h : node.entries.lookup name <;> simp [kindAt, get, h]

theorem kindAt_above {node : FileTree} {place rest : Location} (hrest : rest ≠ [])
    (h : node.kindAt (place ++ rest) ≠ none) : node.kindAt place = some .directory := by
  induction place generalizing node with
  | nil =>
    obtain ⟨name, rest, rfl⟩ := exists_cons_of_ne_nil hrest
    cases node with
    | directory entries => rfl
    | file data => exact absurd rfl h
    | symlink absolute target => exact absurd rfl h
  | cons name place ih =>
    rw [cons_append, kindAt_cons] at h
    rw [kindAt_cons]
    cases hchild : node.entries.lookup name with
    | none => simp [hchild] at h
    | some child =>
      rw [hchild] at h
      exact ih h

theorem lookup_entry (name other : FileName) (node : FileTree)
    (entries : List (FileName × FileTree)) :
    ((other, node) :: entries).lookup name =
      if name = other then some node else entries.lookup name := by
  by_cases h : name = other
  · simp [h]
  · have hne : (name == other) = false := by simpa using h
    rw [lookup_cons, hne, if_neg h]

theorem lookup_replaceEntry (entries : List (FileName × FileTree)) (name other : FileName)
    (value : Option FileTree) :
    (replaceEntry entries name value).lookup other =
      if other = name then value else entries.lookup other := by
  have hrest : (entries.filter fun entry => entry.1 ≠ name).lookup other =
      if other = name then none else entries.lookup other := by
    induction entries with
    | nil => simp
    | cons entry entries ih =>
      obtain ⟨first, node⟩ := entry
      rw [lookup_entry]
      by_cases hfirst : first = name
      · rw [filter_cons_of_neg (by simpa using hfirst), ih, hfirst]
        by_cases hother : other = name <;> simp [hother]
      · rw [filter_cons_of_pos (by simpa using hfirst), lookup_entry, ih]
        by_cases hother : other = name
        · have hne : name ≠ first := fun h => hfirst h.symm
          simp [hother, hne]
        · simp [hother]
  cases value with
  | none => simpa [replaceEntry] using hrest
  | some node =>
    show ((name, node) :: entries.filter fun entry => entry.1 ≠ name).lookup other = _
    rw [lookup_entry, hrest]
    by_cases hother : other = name <;> simp [hother]

variable {name : FileName}

/-- Something that can be told of each node without looking at the entries of directories:
    what is told after a node was put into a directory. -/
theorem get_map_put {α : Type} {f : FileTree → α}
    (hf : ∀ entries entries', f (.directory entries) = f (.directory entries')) {node : FileTree}
    {place : Location} (value : Option FileTree) (hdir : node.kindAt place = some .directory)
    (other : Location) :
    ((node.put (place ++ [name]) value).get other).map f =
      if place ++ [name] <+: other then
        value.bind fun v => (v.get (other.drop (place.length + 1))).map f
      else (node.get other).map f := by
  induction place generalizing node other with
  | nil =>
    obtain ⟨entries, rfl⟩ : ∃ entries, node = .directory entries := by
      cases node with
      | directory entries => exact ⟨entries, rfl⟩
      | file data => cases hdir
      | symlink absolute target => cases hdir
    cases other with
    | nil =>
      rw [if_neg (by simp)]
      exact congrArg some (hf _ _)
    | cons first rest =>
      show (((replaceEntry entries name value).lookup first).bind fun child =>
        child.get rest).map f = _
      rw [lookup_replaceEntry]
      by_cases h : first = name
      · rw [if_pos h, if_pos (by simp [h])]
        cases value <;> rfl
      · have hother : ¬ [] ++ [name] <+: first :: rest := by
          intro hinitial
          exact h (cons_prefix_cons.mp hinitial).1.symm
        rw [if_neg h, if_neg hother]
        rfl
  | cons first place ih =>
    rw [kindAt_cons] at hdir
    cases hchild : node.entries.lookup first with
    | none => simp [hchild] at hdir
    | some child =>
      rw [hchild] at hdir
      obtain ⟨next, rest, hnext⟩ : ∃ next rest, place ++ [name] = next :: rest :=
        exists_cons_of_ne_nil (by simp)
      rw [cons_append, hnext]
      cases other with
      | nil =>
        obtain ⟨entries, rfl⟩ : ∃ entries, node = .directory entries := by
          cases node with
          | directory entries => exact ⟨entries, rfl⟩
          | file data => simp [entries] at hchild
          | symlink absolute target => simp [entries] at hchild
        rw [if_neg (by simp)]
        exact congrArg some (hf _ _)
      | cons second other =>
        show (((replaceEntry node.entries first ((node.entries.lookup first).map fun child =>
          child.put (next :: rest) value)).lookup second).bind fun child =>
            child.get other).map f = _
        rw [lookup_replaceEntry, hchild]
        by_cases h : second = first
        · rw [if_pos h, Option.map_some, Option.bind_some, ← hnext, ih hdir other, h]
          simp only [cons_prefix_cons, true_and, length_cons, drop_succ_cons, get,
            hchild, Option.bind_some]
        · have hother : ¬ first :: next :: rest <+: second :: other := by
            intro hinitial
            exact h (cons_prefix_cons.mp hinitial).1.symm
          rw [if_neg h, if_neg hother]
          rfl

theorem kindAt_put {node : FileTree} {place : Location} {name : FileName} (value : Option FileTree)
    (hdir : node.kindAt place = some .directory) (other : Location) :
    (node.put (place ++ [name]) value).kindAt other =
      if place ++ [name] <+: other then
        value.bind fun v => v.kindAt (other.drop (place.length + 1))
      else node.kindAt other :=
  get_map_put (fun _ _ => rfl) value hdir other

/-! ## Walking along paths -/

/-- Where components lead to from a directory, up to a first link that has to be followed:
    from there on, `again` walks. A name that nothing has may only come last, and in a
    directory. -/
def walk (disk : FileTree) (follow : Bool)
    (again : Location → List Component → Except Errno Location) :
    Location → List Component → Except Errno Location
  | here, [] => .ok here
  | here, .up :: rest => walk disk follow again here.dropLast rest
  | here, .name name :: rest =>
    match disk.kindAt (here ++ [name]) with
    | some .directory => walk disk follow again (here ++ [name]) rest
    | some (.symlink absolute target) =>
      if rest = [] && !follow then .ok (here ++ [name])
      else again (if absolute then [] else here) (target ++ rest)
    | some .file => if rest = [] then .ok (here ++ [name]) else .error .ENOTDIR
    | none =>
      if rest = [] && disk.kindAt here = some .directory then .ok (here ++ [name])
      else .error .ENOENT

/-- Where components lead to through at most `n` links. -/
def walkLinks (disk : FileTree) (follow : Bool) :
    Nat → Location → List Component → Except Errno Location
  | 0 => walk disk follow fun _ _ => .error .ELOOP
  | n + 1 => walk disk follow (walkLinks disk follow n)

/-- The location that a path leads to from the directory `cwd`; `follow` says whether a link
    at its end is followed. -/
def locate (disk : FileTree) (cwd : Location) (follow : Bool) (path : Path) :
    Except Errno Location :=
  walkLinks disk follow 40 (if path.absolute then [] else cwd) path.parts

section Walk

variable {disk disk' : FileTree} {follow : Bool} {n : Nat} {here place : Location}
  {comps rest : List Component} {again' again : Location → List Component → Except Errno Location}
  {name : FileName}

/-- A walk may end at a name that is no directory. -/
def Last (disk : FileTree) (follow : Bool) (here : Location) (name : FileName) : Prop :=
  disk.kindAt (here ++ [name]) = some .file ∨
    (disk.kindAt (here ++ [name]) = none ∧ disk.kindAt here = some .directory) ∨
    (follow = false ∧
      ∃ absolute target, disk.kindAt (here ++ [name]) = some (.symlink absolute target))

theorem walk_name_eq_ok : walk disk follow again here (.name name :: rest) = .ok place ↔
    (disk.kindAt (here ++ [name]) = some .directory ∧
      walk disk follow again (here ++ [name]) rest = .ok place) ∨
    (∃ absolute target, disk.kindAt (here ++ [name]) = some (.symlink absolute target) ∧
      (rest = [] → follow = true) ∧
      again (if absolute then [] else here) (target ++ rest) = .ok place) ∨
    (rest = [] ∧ place = here ++ [name] ∧ Last disk follow here name) := by
  rw [walk, Last]
  cases hkind : disk.kindAt (here ++ [name]) with
  | none =>
    by_cases hlast : rest = [] <;> by_cases hdir : disk.kindAt here = some .directory <;>
      simp [hlast, hdir, eq_comm]
  | some kind =>
    cases kind with
    | directory => simp
    | file => by_cases hlast : rest = [] <;> simp [hlast, eq_comm]
    | symlink absolute target =>
      by_cases hlast : rest = [] <;> cases follow <;> simp [hlast, eq_comm]

theorem Last.not_directory (h : Last disk true here name) :
    disk.kindAt (here ++ [name]) ≠ some .directory := by
  rcases h with hkind | ⟨hkind, -⟩ | ⟨hfollow, -⟩
  · simp [hkind]
  · simp [hkind]
  · cases hfollow

theorem walk_append {P : Except Errno Location → Prop}
    (hagain : ∀ here comps, again here comps = .ok place → P (again' here (comps ++ rest)))
    (hrest : rest ≠ []) (hdir : disk.kindAt place = some .directory)
    (hend : P (walk disk follow again' place rest))
    (h : walk disk true again here comps = .ok place) :
    P (walk disk follow again' here (comps ++ rest)) := by
  induction comps generalizing here with
  | nil =>
    cases h
    exact hend
  | cons comp comps ih =>
    cases comp with
    | up => exact ih h
    | name name =>
      rw [cons_append, walk]
      rcases walk_name_eq_ok.mp h with ⟨hkind, h⟩ | ⟨_, _, hkind, -, h⟩ | ⟨-, rfl, hlast⟩
      · rw [hkind]
        exact ih h
      · rw [hkind]
        dsimp only
        rw [if_neg (by simp [hrest]), ← append_assoc]
        exact hagain _ _ h
      · exact absurd hdir hlast.not_directory

theorem walkLinks_append (hrest : rest ≠ []) (hdir : disk.kindAt place = some .directory)
    (h : walkLinks disk true n here comps = .ok place) :
    ∃ m, walkLinks disk follow n here (comps ++ rest) = walkLinks disk follow m place rest := by
  induction n generalizing here comps with
  | zero =>
    exact walk_append (P := fun r => ∃ m, r = walkLinks disk follow m place rest)
      (fun _ _ h => by cases h) hrest hdir ⟨0, rfl⟩ h
  | succ n ih =>
    exact walk_append (P := fun r => ∃ m, r = walkLinks disk follow m place rest)
      (fun here comps h => ih h) hrest hdir ⟨n + 1, rfl⟩ h

theorem walk_name_directory
    (hagain : ∀ here comps, again' here (comps ++ .name name :: rest) = .ok place →
      ∃ d, again here comps = .ok d ∧ disk.kindAt d = some .directory)
    (h : walk disk follow again' here (comps ++ .name name :: rest) = .ok place) :
    ∃ d, walk disk true again here comps = .ok d ∧ disk.kindAt d = some .directory := by
  induction comps generalizing here with
  | nil =>
    refine ⟨here, rfl, ?_⟩
    by_cases hkind : disk.kindAt (here ++ [name]) = none
    · rcases walk_name_eq_ok.mp h with ⟨hkind', -⟩ | ⟨_, _, hkind', -⟩ | ⟨-, -, hlast⟩
      · simp [hkind] at hkind'
      · simp [hkind] at hkind'
      · simpa [Last, hkind] using hlast
    · exact @kindAt_above disk here [name] (by simp) hkind
  | cons comp comps ih =>
    cases comp with
    | up => exact ih h
    | name first =>
      rcases walk_name_eq_ok.mp h with ⟨hkind, h⟩ | ⟨absolute, target, hkind, -, h⟩ | ⟨hnil, -⟩
      · obtain ⟨d, hd, hdir⟩ := ih h
        exact ⟨d, walk_name_eq_ok.mpr (.inl ⟨hkind, hd⟩), hdir⟩
      · rw [append_eq, ← append_assoc] at h
        obtain ⟨d, hd, hdir⟩ := hagain _ _ h
        exact ⟨d, walk_name_eq_ok.mpr (.inr (.inl ⟨_, _, hkind, fun _ => rfl, hd⟩)), hdir⟩
      · simp at hnil

theorem walkLinks_name_directory
    (h : walkLinks disk follow n here (comps ++ .name name :: rest) = .ok place) :
    ∃ d, walkLinks disk true n here comps = .ok d ∧ disk.kindAt d = some .directory := by
  induction n generalizing here comps with
  | zero => exact walk_name_directory (fun _ _ h => by cases h) h
  | succ n ih => exact walk_name_directory (fun _ _ h => ih h) h

/-- No link stands below a location on the way along some names. -/
def NoLinks (disk : FileTree) (place : Location) (names : List FileName) : Prop :=
  ∀ front, front ≠ [] → front <+: names →
    ∀ absolute target, disk.kindAt (place ++ front) ≠ some (.symlink absolute target)

theorem NoLinks.of_prefix {names names' : List FileName} (h : NoLinks disk place names')
    (hinitial : names <+: names') : NoLinks disk place names :=
  fun front hne hfront => h front hne (hfront.trans hinitial)

variable {names : List FileName}

theorem NoLinks.tail (h : NoLinks disk place (name :: names)) :
    NoLinks disk (place ++ [name]) names := by
  intro front _ hfront absolute target
  have hlink := h (name :: front) (by simp) (cons_prefix_cons.mpr ⟨rfl, hfront⟩)
  simpa using hlink absolute target

theorem walk_names (hlinks : NoLinks disk here names)
    (h : walk disk follow again here (names.map .name) = .ok place) : place = here ++ names := by
  induction names generalizing here with
  | nil => simpa [walk] using h.symm
  | cons name names ih =>
    rcases walk_name_eq_ok.mp h with ⟨-, h⟩ | ⟨absolute, target, hkind, -⟩ | ⟨hnil, rfl, -⟩
    · rw [ih hlinks.tail h, append_assoc, singleton_append]
    · exact absurd hkind (hlinks [name] (by simp) (by simp) absolute target)
    · rw [map_eq_nil_iff.mp hnil]

theorem walkLinks_names (hlinks : NoLinks disk here names)
    (h : walkLinks disk follow n here (names.map .name) = .ok place) : place = here ++ names := by
  cases n with
  | zero => exact walk_names hlinks h
  | succ n => exact walk_names hlinks h

theorem walk_stands (hstands : disk.kindAt (here ++ names) ≠ none) :
    walk disk false again here (names.map .name) = .ok (here ++ names) := by
  induction names generalizing here with
  | nil => simp [walk]
  | cons name names ih =>
    have hassoc : here ++ name :: names = (here ++ [name]) ++ names := by simp
    rw [hassoc] at hstands ⊢
    cases names with
    | nil =>
      rw [append_nil] at hstands ⊢
      simp only [map_cons, map_nil, walk]
      cases hkind : disk.kindAt (here ++ [name]) with
      | none => exact absurd hkind hstands
      | some kind => cases kind <;> rfl
    | cons next names =>
      have hdir := kindAt_above (by simp) hstands
      rw [map_cons, walk, hdir]
      exact ih hstands

theorem walkLinks_stands (hstands : disk.kindAt (here ++ names) ≠ none) :
    walkLinks disk false n here (names.map .name) = .ok (here ++ names) := by
  cases n with
  | zero => exact walk_stands hstands
  | succ n => exact walk_stands hstands

theorem walk_names_last (hlinks : NoLinks disk here names)
    (h : walk disk false again here ((names ++ [name]).map .name) = .ok place) :
    place = here ++ names ++ [name] := by
  induction names generalizing here with
  | nil =>
    rw [append_nil]
    rcases walk_name_eq_ok.mp h with ⟨-, h⟩ | ⟨_, _, -, hfollow, -⟩ | ⟨-, hplace, -⟩
    · exact (Except.ok.inj h).symm
    · cases hfollow rfl
    · exact hplace
  | cons first names ih =>
    rcases walk_name_eq_ok.mp h with ⟨-, h⟩ | ⟨absolute, target, hkind, -⟩ | ⟨hnil, -⟩
    · rw [ih hlinks.tail h, append_assoc here, singleton_append]
    · exact absurd hkind (hlinks [first] (by simp) (by simp) absolute target)
    · simp at hnil

theorem walkLinks_names_last (hlinks : NoLinks disk here names)
    (h : walkLinks disk false n here ((names ++ [name]).map .name) = .ok place) :
    place = here ++ names ++ [name] := by
  cases n with
  | zero | succ => exact walk_names_last hlinks h

theorem walk_missing
    (hagain : ∀ here comps, again here (comps ++ [.name name]) = .ok place →
      ∃ parent last, place = parent ++ [last] ∧ disk.kindAt parent = some .directory)
    (hmissing : disk.kindAt place = none)
    (h : walk disk false again here (comps ++ [.name name]) = .ok place) :
    ∃ parent last, place = parent ++ [last] ∧ disk.kindAt parent = some .directory := by
  induction comps generalizing here with
  | nil =>
    rcases walk_name_eq_ok.mp h with ⟨hkind, h⟩ | ⟨_, _, -, hfollow, -⟩ | ⟨-, rfl, hlast⟩
    · cases h
      cases hkind.symm.trans hmissing
    · cases hfollow rfl
    · exact ⟨here, name, rfl, by simpa [Last, hmissing] using hlast⟩
  | cons comp comps ih =>
    cases comp with
    | up => exact ih h
    | name first =>
      rcases walk_name_eq_ok.mp h with ⟨-, h⟩ | ⟨_, _, -, -, h⟩ | ⟨hnil, -⟩
      · exact ih h
      · rw [append_eq, ← append_assoc] at h
        exact hagain _ _ h
      · simp at hnil

theorem walkLinks_missing (hmissing : disk.kindAt place = none)
    (h : walkLinks disk false n here (comps ++ [.name name]) = .ok place) :
    ∃ parent last, place = parent ++ [last] ∧ disk.kindAt parent = some .directory := by
  induction n generalizing here comps with
  | zero => exact walk_missing (fun _ _ h => by cases h) hmissing h
  | succ n ih => exact walk_missing (fun _ _ h => ih h) hmissing h

/-- A walk that does not follow a link at the end, and does not end at one, also ends there
    when links are followed. -/
theorem walk_follow
    (hagain : ∀ here comps, again here comps = .ok place → again' here comps = .ok place)
    (hlink : ∀ absolute target, disk.kindAt place ≠ some (.symlink absolute target))
    (h : walk disk false again here comps = .ok place) :
    walk disk true again' here comps = .ok place := by
  induction comps generalizing here with
  | nil => exact h
  | cons comp comps ih =>
    cases comp with
    | up => exact ih h
    | name name =>
      apply walk_name_eq_ok.mpr
      rcases walk_name_eq_ok.mp h with ⟨hkind, h⟩ | ⟨_, _, hkind, -, h⟩ | ⟨hnil, rfl, hlast⟩
      · exact .inl ⟨hkind, ih h⟩
      · exact .inr (.inl ⟨_, _, hkind, fun _ => rfl, hagain _ _ h⟩)
      · rcases hlast with hkind | hkind | ⟨-, absolute, target, hkind⟩
        · exact .inr (.inr ⟨hnil, rfl, .inl hkind⟩)
        · exact .inr (.inr ⟨hnil, rfl, .inr (.inl hkind)⟩)
        · exact absurd hkind (hlink absolute target)

theorem walkLinks_follow
    (hlink : ∀ absolute target, disk.kindAt place ≠ some (.symlink absolute target))
    (h : walkLinks disk false n here comps = .ok place) :
    walkLinks disk true n here comps = .ok place := by
  induction n generalizing here comps with
  | zero => exact walk_follow (fun _ _ h => by cases h) hlink h
  | succ n ih => exact walk_follow (fun _ _ h => ih h) hlink h

theorem walk_unfollow
    (hagain : ∀ here comps, again here comps = .ok place → ∃ p, again' here comps = .ok p ∧
      (p = place ∨ ∃ absolute target, disk.kindAt p = some (.symlink absolute target)))
    (h : walk disk true again here comps = .ok place) :
    ∃ p, walk disk false again' here comps = .ok p ∧
      (p = place ∨ ∃ absolute target, disk.kindAt p = some (.symlink absolute target)) := by
  induction comps generalizing here with
  | nil => exact ⟨place, h, .inl rfl⟩
  | cons comp comps ih =>
    cases comp with
    | up => exact ih h
    | name name =>
      rcases walk_name_eq_ok.mp h with ⟨hkind, h⟩ | ⟨absolute, target, hkind, -, h⟩ |
        ⟨hnil, hplace, hlast⟩
      · obtain ⟨p, hp, hend⟩ := ih h
        exact ⟨p, walk_name_eq_ok.mpr (.inl ⟨hkind, hp⟩), hend⟩
      · by_cases hnil : comps = []
        · exact ⟨_, walk_name_eq_ok.mpr (.inr (.inr ⟨hnil, rfl, .inr (.inr ⟨rfl, _, _, hkind⟩)⟩)),
            .inr ⟨absolute, target, hkind⟩⟩
        · obtain ⟨p, hp, hend⟩ := hagain _ _ h
          exact ⟨p, walk_name_eq_ok.mpr (.inr (.inl ⟨_, _, hkind, (absurd · hnil), hp⟩)), hend⟩
      · refine ⟨place, walk_name_eq_ok.mpr (.inr (.inr ⟨hnil, hplace, ?_⟩)), .inl rfl⟩
        exact hlast.imp_right (Or.imp_right fun hlink => nomatch hlink.1)

theorem walkLinks_unfollow (h : walkLinks disk true n here comps = .ok place) :
    ∃ p, walkLinks disk false n here comps = .ok p ∧
      (p = place ∨ ∃ absolute target, disk.kindAt p = some (.symlink absolute target)) := by
  induction n generalizing here comps with
  | zero => exact walk_unfollow (fun _ _ h => by cases h) h
  | succ n ih => exact walk_unfollow (fun _ _ h => ih h) h

/-- What stood in a tree stands in another one, in the same way. -/
def Grows (disk disk' : FileTree) : Prop :=
  ∀ place kind, disk.kindAt place = some kind → disk'.kindAt place = some kind

theorem walk_grows (hgrows : Grows disk disk')
    (hagain : ∀ here comps, again here comps = .ok place → again' here comps = .ok place)
    (hstands : disk.kindAt place ≠ none) (h : walk disk follow again here comps = .ok place) :
    walk disk' follow again' here comps = .ok place := by
  induction comps generalizing here with
  | nil => exact h
  | cons comp comps ih =>
    cases comp with
    | up => exact ih h
    | name name =>
      apply walk_name_eq_ok.mpr
      rcases walk_name_eq_ok.mp h with ⟨hkind, h⟩ | ⟨_, _, hkind, hfollow, h⟩ | ⟨hnil, rfl, hlast⟩
      · exact .inl ⟨hgrows _ _ hkind, ih h⟩
      · exact .inr (.inl ⟨_, _, hgrows _ _ hkind, hfollow, hagain _ _ h⟩)
      · refine .inr (.inr ⟨hnil, rfl, ?_⟩)
        rcases hlast with hkind | ⟨hkind, -⟩ | ⟨hfollow, absolute, target, hkind⟩
        · exact .inl (hgrows _ _ hkind)
        · exact absurd hkind hstands
        · exact .inr (.inr ⟨hfollow, absolute, target, hgrows _ _ hkind⟩)

theorem walkLinks_grows (hgrows : Grows disk disk') (hstands : disk.kindAt place ≠ none)
    (h : walkLinks disk follow n here comps = .ok place) :
    walkLinks disk' follow n here comps = .ok place := by
  induction n generalizing here comps with
  | zero => exact walk_grows hgrows (fun _ _ h => by cases h) hstands h
  | succ n ih => exact walk_grows hgrows (fun _ _ h => ih h) hstands h

end Walk

end FileTree

end Kryndel
