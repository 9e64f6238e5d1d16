import Mathlib.Data.Set.Finite.Lattice
import Kryndel.Files.Below
import Kryndel.Files.Inner

/-!
# Paths that lead somewhere

A file system is finite, and so only finitely many paths below a root lead to something
without going through links.
-/

namespace Kryndel

open List

/-! ## Absolute paths -/

theorem clean_absolute (path : Bytes) : (clean path).absolute = isAbs path :=
  Path.foldl_push_absolute _ _

theorem isAbs_append {base : Bytes} (h : isAbs base = true) (path : Bytes) :
    isAbs (base ++ path) = true := by
  cases base with
  | nil => cases h
  | cons b base => exact h

theorem join_absolute {base : Bytes} (h : isAbs base = true) (path : Bytes) :
    (join base path).absolute = true := by
  rw [join, clean_absolute, isAbs_append h]

variable {path : Path}

theorem Path.isAbs_text (h : path.absolute = true) : isAbs path.text = true := by
  rw [Path.text, if_pos h]
  rfl

theorem Path.dir_absolute (path : Path) : path.dir.absolute = path.absolute := by
  rw [Path.dir]
  split <;> rfl

theorem Path.abs_absolute (path : Path) {cwd : Path} (h : cwd.absolute = true) :
    (path.abs cwd).absolute = true := by
  rw [Path.abs]
  split
  · assumption
  · rw [Path.foldl_push_absolute, h]

/-! ## Finitely many places -/

theorem FileTree.sizeOf_entry {node : FileTree} {entry : FileName × FileTree}
    (h : entry ∈ node.entries) : sizeOf entry.2 < sizeOf node := by
  cases node with
  | file data => cases h
  | symlink absolute target => cases h
  | directory entries =>
    have hentry := sizeOf_lt_of_mem h
    rw [FileTree.directory.sizeOf_spec]
    rw [Prod.mk.sizeOf_spec] at hentry
    have hentries : sizeOf (FileTree.directory entries).entries = sizeOf entries := rfl
    omega

theorem FileTree.finite_places (node : FileTree) : {place | node.get place ≠ none}.Finite := by
  have hbelow : ∀ entry ∈ node.entries, {place | entry.2.get place ≠ none}.Finite :=
    fun entry hentry =>
      have := sizeOf_entry hentry
      finite_places entry.2
  have hcover : {place | node.get place ≠ none} ⊆
      {[]} ∪ ⋃ entry ∈ {entry | entry ∈ node.entries},
        List.cons entry.1 '' {place | entry.2.get place ≠ none} := by
    intro place hplace
    cases place with
    | nil => exact .inl rfl
    | cons name rest =>
      right
      obtain ⟨found, hfound⟩ := Option.ne_none_iff_exists'.mp hplace
      obtain ⟨child, hchild, hget⟩ := Option.bind_eq_some_iff.mp hfound
      obtain ⟨front, back, hentries, -⟩ := lookup_eq_some_iff.mp hchild
      rw [Set.mem_iUnion₂]
      refine ⟨(name, child), ?_, rest, ?_, rfl⟩
      · show (name, child) ∈ node.entries
        rw [hentries]
        simp
      · show child.get rest ≠ none
        rw [hget]
        simp
  refine ((Set.finite_singleton _).union ?_).subset hcover
  exact (finite_toSet _).biUnion fun entry hentry => (hbelow entry hentry).image _
termination_by sizeOf node

theorem dropCommon_split {α : Type} [DecidableEq α] (front back : List α) :
    ∃ common, front = common ++ (dropCommon front back).1 ∧
      back = common ++ (dropCommon front back).2 := by
  induction front generalizing back with
  | nil => exact ⟨[], by cases back <;> exact ⟨rfl, rfl⟩⟩
  | cons a front ih =>
    cases back with
    | nil => exact ⟨[], rfl, rfl⟩
    | cons b back =>
      rw [dropCommon]
      split
      · next heq =>
        obtain ⟨common, hfront, hback⟩ := ih back
        refine ⟨a :: common, ?_, ?_⟩
        · rw [cons_append, ← hfront]
        · rw [cons_append, ← hback, heq]
      · exact ⟨[], rfl, rfl⟩

variable {root : Path} {host : Host}

theorem extend_of_within (hroot : root.absolute = true) (hpath : path.absolute = true)
    (h : within host root path = true) :
    ∃ names, path = root.extend names := by
  have hparts : ∀ path : Path, path.absolute = true →
      path.parts = path.names.map Component.name := by
    intro path habs
    rw [Path.parts, path.rooted habs]
    rfl
  have habs : ∀ path : Path, path.absolute = true → path.abs host.workingDirectory = path :=
    fun path hpath => if_pos hpath
  rw [within, habs root hroot, habs path hpath, rel, if_neg (by rw [hroot, hpath]; simp)] at h
  obtain ⟨common, hup, hdown⟩ := dropCommon_split root.parts path.parts
  generalize dropCommon root.parts path.parts = dropped at h hup hdown
  obtain ⟨up, down⟩ := dropped
  simp only at h hup hdown
  -- what is left of the path are names, so that the number of `..` is the length of `up`
  obtain ⟨front, names, hnames, hcommon, rfl⟩ := map_eq_append_iff.mp
    ((hparts path hpath).symm.trans hdown)
  split at h
  · cases h
  · next found hfound =>
    split at hfound
    · cases hfound
    · rw [Path.foldl_push_names, Option.some.injEq] at hfound
      rw [← hfound] at h
      have hnil : up = [] := by simpa using h
      subst hnil
      rw [append_nil, hparts root hroot, ← hcommon] at hup
      have hinj : Function.Injective Component.name := fun _ _ h => Component.name.inj h
      refine ⟨names, ?_⟩
      have hfront := map_injective_iff.mpr hinj hup
      rw [← hfront] at hnames
      have hups := path.rooted hpath
      cases path
      cases root
      simp_all [Path.extend]

variable {disk : FileTree}

theorem noLinks_of_safeComponents {place : Location} {names : List FileName}
    (hsafe : (safeComponents host root (root.extend names) disk).result = .ok true)
    (hroot : locateIn host true root disk = .ok place)
    (hdir : disk.kindAt place = some .directory) :
    FileTree.NoLinks disk place names := by
  intro front hne hfront absolute target hkind
  rw [safeComponents, rel_extend] at hsafe
  have hparts : (⟨false, 0, names, by simp⟩ : Path).parts = names.map Component.name := by
    simp [Path.parts]
  apply @lstat_of_safeComponentsFrom host disk _ _ _ hsafe hfront hne absolute target
  -- A link at this place is what `Lstat` of the path sees.
  obtain ⟨m, hlocate⟩ := @locateIn_behind host disk place front _ false hne hroot hdir
  rw [FileTree.walkLinks_stands (by simp [hkind])] at hlocate
  simp only [lstat, statAt, hlocate, hkind]

theorem located_of_stat {kind : Kind} (h : (stat host path disk).result = .ok kind) :
    ∃ place, locateIn host true path disk = .ok place ∧ disk.kindAt place = some kind := by
  unfold stat statAt at h
  cases hlocate : locateIn host true path disk with
  | error e => simp [hlocate, Os.fail] at h
  | ok place =>
    simp only [hlocate] at h
    cases hkind : disk.kindAt place with
    | none => simp [hkind, Os.fail] at h
    | some kind' =>
      rw [hkind] at h
      exact ⟨place, rfl, by rw [hkind, Except.ok.inj h]⟩

/-- Only finitely many paths within a root lead to something without going through links. -/
theorem finite_safe (hroot : root.absolute = true) :
    {path | path.absolute = true ∧ within host root path = true ∧
      (safeComponents host root path disk).result = .ok true ∧
        ∃ kind, (stat host path disk).result = .ok kind}.Finite := by
  have hcover : {path | path.absolute = true ∧ within host root path = true ∧
      (safeComponents host root path disk).result = .ok true ∧
        ∃ kind, (stat host path disk).result = .ok kind} ⊆
      {root} ∪ ⋃ k ∈ {k | ∃ place, locateIn host true root disk = .ok place ∧ place.length = k},
        (fun place : Location => root.extend (place.drop k)) ''
          {place | disk.get place ≠ none} := by
    rintro path ⟨habs, hwithin, hsafe, kind, hstat⟩
    obtain ⟨names, rfl⟩ := extend_of_within hroot habs hwithin
    by_cases hnames : names = []
    · left
      rw [hnames, Path.extend_nil]
      rfl
    · right
      obtain ⟨p, hlocate, hkind⟩ := located_of_stat hstat
      obtain ⟨place, hplace, hdir⟩ := directory_of_located hnames hlocate
      have hlinks := noLinks_of_safeComponents hsafe hplace hdir
      obtain ⟨m, hwalk⟩ := @locateIn_behind host disk place names _ true hnames hplace hdir
      rw [hwalk] at hlocate
      have hp := FileTree.walkLinks_names hlinks hlocate
      rw [Set.mem_iUnion₂]
      refine ⟨place.length, ⟨place, hplace, rfl⟩, p, ?_, ?_⟩
      · intro hnone
        rw [FileTree.kindAt, hnone] at hkind
        cases hkind
      · simp only [hp, drop_left]
  refine ((Set.finite_singleton _).union ?_).subset hcover
  apply Set.Finite.biUnion
  · -- the root is in one place
    apply Set.Subsingleton.finite
    rintro k ⟨place, hplace, rfl⟩ k' ⟨place', hplace', rfl⟩
    rw [hplace] at hplace'
    rw [Except.ok.inj hplace']
  · intro k _
    exact disk.finite_places.image _

end Kryndel
