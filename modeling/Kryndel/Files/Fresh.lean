import Kryndel.Files.Below

/-!
# Files that are made in a directory without links

What `os.MkdirAll` and the creation of files do below a directory in which there are no links:
a path leads to where its names say, and directories can be made along names that lead through
no file.
-/

namespace Kryndel

open List

/-! ## Shapes -/

/-- A node without the entries of directories. -/
inductive Shape where
  | file (data : Bytes)
  | symlink (absolute : Bool) (target : List Component)
  | directory
deriving DecidableEq

def Shape.kind : Shape → Kind
  | .file _ => .file
  | .symlink absolute target => .symlink absolute target
  | .directory => .directory

namespace FileTree

def shape : FileTree → Shape
  | .file data => .file data
  | .symlink absolute target => .symlink absolute target
  | .directory _ => .directory

/-- What stands at a location, if anything. -/
def shapeAt (node : FileTree) (place : Location) : Option Shape :=
  (node.get place).map shape

theorem kindAt_eq_shapeAt (node : FileTree) (place : Location) :
    node.kindAt place = (node.shapeAt place).map Shape.kind := by
  rw [kindAt, shapeAt, Option.map_map]
  congr 1
  funext node
  cases node <;> rfl

theorem kindAt_eq_none {node : FileTree} {place : Location} :
    node.kindAt place = none ↔ node.shapeAt place = none := by
  rw [kindAt_eq_shapeAt, Option.map_eq_none_iff]

theorem kindAt_eq_directory {node : FileTree} {place : Location} :
    node.kindAt place = some .directory ↔ node.shapeAt place = some .directory := by
  rw [kindAt_eq_shapeAt]
  cases node.shapeAt place with
  | none => simp
  | some shape => cases shape <;> simp [Shape.kind]

theorem shapeAt_cons (node : FileTree) (name : FileName) (rest : Location) :
    node.shapeAt (name :: rest) = (node.entries.lookup name).bind fun child =>
      child.shapeAt rest := by
  cases h : node.entries.lookup name <;> simp [shapeAt, get, h]

theorem shapeAt_put {node : FileTree} {place : Location} {name : FileName}
    (value : Option FileTree) (hdir : node.kindAt place = some .directory) (other : Location) :
    (node.put (place ++ [name]) value).shapeAt other =
      if place ++ [name] <+: other then
        value.bind fun v => v.shapeAt (other.drop (place.length + 1))
      else node.shapeAt other :=
  get_map_put (fun _ _ => rfl) value hdir other

end FileTree

/-! ## Directories without links -/

/-- A path leads to a directory, and no link stands below it. -/
structure Clear (host : Host) (dest : Path) (place : Location) (disk : FileTree) : Prop where
  located : locateIn host true dest disk = .ok place
  directory : disk.kindAt place = some .directory
  links : ∀ names absolute target, disk.kindAt (place ++ names) ≠ some (.symlink absolute target)

section Clear

variable {host : Host} {dest : Path} {place : Location} {disk disk' : FileTree}
  {names front : List FileName} {name : FileName}

theorem Clear.noLinks (h : Clear host dest place disk) (names : List FileName) :
    FileTree.NoLinks disk place names :=
  fun front _ _ absolute target => h.links front absolute target

theorem FileTree.walk_name_in {follow : Bool}
    {again : Location → List Component → Except Errno Location} {here : Location}
    (hdir : disk.kindAt (here ++ front) = some .directory)
    (hlink : ∀ absolute target,
      disk.kindAt (here ++ (front ++ [name])) ≠ some (.symlink absolute target)) :
    disk.walk follow again here ((front ++ [name]).map .name) =
      .ok (here ++ (front ++ [name])) := by
  induction front generalizing here with
  | nil =>
    rw [append_nil] at hdir
    rw [nil_append] at hlink ⊢
    simp only [map_cons, map_nil, walk]
    cases hkind : disk.kindAt (here ++ [name]) with
    | none => simp [hdir]
    | some kind =>
      cases kind with
      | directory => simp
      | file => simp
      | symlink absolute target => exact absurd hkind (hlink absolute target)
  | cons first front ih =>
    have hassoc : ∀ rest, here ++ first :: rest = (here ++ [first]) ++ rest := by simp
    rw [hassoc] at hdir
    have hfirst : disk.kindAt (here ++ [first]) = some .directory := by
      by_cases hfront : front = []
      · rw [hfront, append_nil] at hdir
        exact hdir
      · exact kindAt_above hfront (by rw [hdir]; simp)
    have hrest := ih hdir fun absolute target => by
      rw [← hassoc]
      exact hlink absolute target
    rw [append_assoc, singleton_append] at hrest
    rw [cons_append, map_cons, walk, hfirst]
    exact hrest

theorem Clear.locate (h : Clear host dest place disk)
    (hdir : disk.kindAt (place ++ front) = some .directory) (follow : Bool) :
    locateIn host follow (dest.extend (front ++ [name])) disk =
      .ok (place ++ (front ++ [name])) := by
  obtain ⟨m, hwalk⟩ := @locateIn_behind host disk place (front ++ [name]) _ follow (by simp)
    h.located h.directory
  rw [hwalk]
  cases m with
  | zero | succ => exact FileTree.walk_name_in hdir (h.links _)

theorem Clear.stat_eq_ok (h : Clear host dest place disk) {kind : Kind} :
    (stat host (dest.extend names) disk).result = .ok kind ↔
      disk.kindAt (place ++ names) = some kind := by
  constructor
  · intro hstat
    unfold stat statAt at hstat
    cases hlocate : locateIn host true (dest.extend names) disk with
    | error e => simp [hlocate, Os.fail] at hstat
    | ok p =>
      have hp : p = place ++ names := by
        by_cases hnames : names = []
        · rw [hnames, Path.extend_nil, h.located] at hlocate
          rw [← Except.ok.inj hlocate, hnames, append_nil]
        · obtain ⟨m, hwalk⟩ := @locateIn_behind host disk place names _ true hnames
            h.located h.directory
          rw [hwalk] at hlocate
          exact FileTree.walkLinks_names (h.noLinks names) hlocate
      simp only [hlocate, hp] at hstat
      cases hkind : disk.kindAt (place ++ names) with
      | none => simp [hkind, Os.fail] at hstat
      | some kind' =>
        rw [hkind] at hstat
        rw [Except.ok.inj hstat]
  · intro hkind
    rcases eq_nil_or_concat names with rfl | ⟨front, name, rfl⟩
    · rw [append_nil] at hkind
      rw [Path.extend_nil, stat_eq h.located hkind]
    · rw [concat_eq_append] at hkind ⊢
      have hdir : disk.kindAt (place ++ front) = some .directory := by
        apply FileTree.kindAt_above (cons_ne_nil name [])
        rw [append_assoc, hkind]
        simp
      rw [stat_eq (h.locate hdir true) hkind]

/-- A node that takes the place of nothing or of a file, in a directory below: nothing else
    changes. -/
theorem shapeAt_put_below {node : FileTree} (hentries : node.entries = [])
    (hdir : disk.kindAt (place ++ front) = some .directory)
    (hold : disk.kindAt (place ++ (front ++ [name])) ≠ some .directory) (other : List FileName) :
    (disk.put (place ++ (front ++ [name])) (some node)).shapeAt (place ++ other) =
      if other = front ++ [name] then some node.shape else disk.shapeAt (place ++ other) := by
  have hput := @FileTree.shapeAt_put disk (place ++ front) name (some node) hdir (place ++ other)
  have hbegins : place ++ front ++ [name] <+: place ++ other ↔ front ++ [name] <+: other := by
    rw [append_assoc, prefix_append_right_inj]
  rw [← append_assoc, hput]
  by_cases hinitial : front ++ [name] <+: other
  · rw [if_pos (hbegins.mpr hinitial)]
    obtain ⟨rest, rfl⟩ := hinitial
    have hdrop :
        (place ++ (front ++ [name] ++ rest)).drop ((place ++ front).length + 1) = rest := by
      have hlength : (place ++ front).length + 1 = (place ++ (front ++ [name])).length := by
        simp only [length_append, length_singleton]
        omega
      have hassoc : place ++ (front ++ [name] ++ rest) = (place ++ (front ++ [name])) ++ rest :=
        (append_assoc _ _ _).symm
      rw [hlength, hassoc, drop_left]
    rw [hdrop, Option.bind_some]
    cases rest with
    | nil =>
      rw [append_nil, if_pos rfl]
      rfl
    | cons first rest =>
      -- nothing stands below what has no entries
      have hbelow : disk.shapeAt (place ++ (front ++ [name] ++ first :: rest)) = none := by
        rw [← FileTree.kindAt_eq_none]
        by_contra hstands
        rw [← append_assoc] at hstands
        exact hold (FileTree.kindAt_above (by simp) hstands)
      rw [if_neg (by simp), hbelow, FileTree.shapeAt_cons, hentries]
      rfl
  · rw [if_neg fun h => hinitial (hbegins.mp h), if_neg]
    rintro rfl
    exact hinitial (prefix_refl _)

theorem shapeAt_put_outside (node : FileTree)
    (hdir : disk.kindAt (place ++ front) = some .directory) {other : Location}
    (hother : ¬ place <+: other) :
    (disk.put (place ++ (front ++ [name])) (some node)).shapeAt other = disk.shapeAt other := by
  rw [← append_assoc, FileTree.shapeAt_put (some node) hdir, if_neg]
  intro hbegins
  apply hother
  rw [append_assoc] at hbegins
  exact (prefix_append _ _).trans hbegins

/-- A file or an empty directory that takes the place of nothing, or a file that takes the
    place of a file. -/
theorem Clear.put (h : Clear host dest place disk) {node : FileTree} (hentries : node.entries = [])
    (hlink : ∀ absolute target, node.kind ≠ .symlink absolute target)
    (hdir : disk.kindAt (place ++ front) = some .directory)
    (hold : disk.kindAt (place ++ (front ++ [name])) = none ∨
      disk.kindAt (place ++ (front ++ [name])) = some .file ∧ node.kind = .file) :
    Clear host dest place (disk.put (place ++ (front ++ [name])) (some node)) := by
  have hnot : disk.kindAt (place ++ (front ++ [name])) ≠ some .directory := by
    rcases hold with hold | hold
    · rw [hold]
      simp
    · rw [hold.1]
      simp
  have hgrows : FileTree.Grows disk (disk.put (place ++ (front ++ [name])) (some node)) := by
    rw [← append_assoc] at hold ⊢
    exact grows_put hdir hold
  refine ⟨FileTree.walkLinks_grows hgrows (by rw [h.directory]; simp) h.located,
    hgrows _ _ h.directory, ?_⟩
  intro names absolute target hkind
  rw [FileTree.kindAt_eq_shapeAt, shapeAt_put_below hentries hdir hnot] at hkind
  split at hkind
  · apply hlink absolute target
    rw [← Option.some.inj hkind]
    cases node <;> rfl
  · rw [← FileTree.kindAt_eq_shapeAt] at hkind
    exact h.links names absolute target hkind

theorem Clear.create_eq (h : Clear host dest place disk) (node : FileTree)
    (hdir : disk.kindAt (place ++ front) = some .directory)
    (hnone : disk.kindAt (place ++ (front ++ [name])) = none) :
    create host (dest.extend (front ++ [name])) node disk =
      ⟨.ok (), disk.put (place ++ (front ++ [name])) (some node),
        [⟨.created, dest.extend (front ++ [name]), place ++ (front ++ [name])⟩]⟩ := by
  rw [create, if_neg (by simp), h.locate hdir false]
  simp only [hnone, if_true]

theorem Clear.create_fails (h : Clear host dest place disk) (node : FileTree)
    (hsome : disk.kindAt (place ++ (front ++ [name])) ≠ none) :
    ∃ e, (create host (dest.extend (front ++ [name])) node disk).result = .error e := by
  have hdir : disk.kindAt (place ++ front) = some .directory := by
    apply FileTree.kindAt_above (cons_ne_nil name [])
    rwa [append_assoc]
  refine ⟨.system .EEXIST, ?_⟩
  rw [create, if_neg (by simp), h.locate hdir false]
  simp only [if_neg hsome]
  rfl

theorem Clear.writeFile_eq (h : Clear host dest place disk) (hfull : host.full = false)
    (hfile : disk.kindAt (place ++ (front ++ [name])) = some .file) (data : Bytes) :
    writeFile host (dest.extend (front ++ [name])) data disk =
      ⟨.ok (), disk.put (place ++ (front ++ [name])) (some (.file data)),
        [⟨.changed, dest.extend (front ++ [name]), place ++ (front ++ [name])⟩]⟩ := by
  have hdir : disk.kindAt (place ++ front) = some .directory := by
    apply FileTree.kindAt_above (cons_ne_nil name [])
    rw [append_assoc, hfile]
    simp
  rw [writeFile, h.locate hdir false]
  simp only [hfull, hfile]
  rfl

theorem Clear.whenMissing_absent (h : Clear host dest place disk)
    (hnone : disk.kindAt (place ++ names) = none) (make : Os Unit) :
    whenMissing host (dest.extend names) make disk = make disk := by
  have hstat : ∃ e, (stat host (dest.extend names) disk).result = .error e := by
    cases hresult : (stat host (dest.extend names) disk).result with
    | error e => exact ⟨e, rfl⟩
    | ok kind =>
      rw [h.stat_eq_ok, hnone] at hresult
      cases hresult
  obtain ⟨e, he⟩ := hstat
  have hattempt : ((stat host (dest.extend names)).attempt disk).result = .ok (.error e) := by
    rw [Os.attempt, he]
  rw [whenMissing, (looks_stat _).attempt.bind_ok hattempt]

theorem Clear.whenMissing_file (h : Clear host dest place disk)
    (hfile : disk.kindAt (place ++ names) = some .file) (make : Os Unit) :
    whenMissing host (dest.extend names) make disk = ⟨.error (.system .ENOTDIR), disk, []⟩ := by
  have hattempt : ((stat host (dest.extend names)).attempt disk).result = .ok (.ok .file) := by
    rw [Os.attempt, h.stat_eq_ok.mpr hfile]
  rw [whenMissing, (looks_stat _).attempt.bind_ok hattempt]
  rfl

/-- What `os.MkdirAll` leaves behind: directories along the names, and the rest as it was. -/
structure Made (host : Host) (dest : Path) (place : Location) (front : List FileName)
    (disk disk' : FileTree) : Prop where
  clear : Clear host dest place disk'
  outside : ∀ other, ¬ place <+: other → disk'.shapeAt other = disk.shapeAt other
  shapes : ∀ names, disk'.shapeAt (place ++ names) =
    if names <+: front then some .directory else disk.shapeAt (place ++ names)

theorem Made.refl (h : Clear host dest place disk)
    (hdir : disk.kindAt (place ++ front) = some .directory) :
    Made host dest place front disk disk := by
  refine ⟨h, fun other _ => rfl, fun names => ?_⟩
  split
  · next hnames =>
    obtain ⟨rest, rfl⟩ := hnames
    rw [← FileTree.kindAt_eq_directory]
    by_cases hrest : rest = []
    · rw [hrest, append_nil] at hdir
      exact hdir
    · rw [← append_assoc] at hdir
      exact FileTree.kindAt_above hrest (by rw [hdir]; simp)
  · rfl

theorem Made.directory (h : Made host dest place front disk disk') :
    disk'.kindAt (place ++ front) = some .directory := by
  rw [FileTree.kindAt_eq_directory, h.shapes, if_pos (prefix_refl _)]

/-- A program that makes directories along some names. -/
def MakesAlong (host : Host) (dest : Path) (place : Location) (front : List FileName) (m : Os Unit)
    (disk disk' : FileTree) : Prop :=
  (m disk').result = .ok () ∧ Made host dest place front disk (m disk').disk

theorem Made.mkdirLast (h : Made host dest place front disk disk')
    (hnone : disk.kindAt (place ++ (front ++ [name])) = none) :
    MakesAlong host dest place (front ++ [name])
      (mkdirLast host (dest.extend (front ++ [name]))) disk disk' := by
  have hnone' : disk'.kindAt (place ++ (front ++ [name])) = none := by
    rw [FileTree.kindAt_eq_none, h.shapes, if_neg, ← FileTree.kindAt_eq_none, hnone]
    intro hbegins
    have hlength := hbegins.length_le
    rw [length_append, length_singleton] at hlength
    omega
  have hcreate := h.clear.create_eq (.directory []) h.directory hnone'
  have hattempt : ((mkdir host (dest.extend (front ++ [name]))).attempt disk').result =
      .ok (.ok ()) := by
    rw [Os.attempt, mkdir, hcreate]
  have hdisk : ((mkdir host (dest.extend (front ++ [name]))).attempt disk').disk =
      disk'.put (place ++ (front ++ [name])) (some (.directory [])) := by
    rw [Os.attempt, mkdir, hcreate]
  rw [MakesAlong, Kryndel.mkdirLast, Os.bind_ok hattempt, hdisk]
  refine ⟨rfl, h.clear.put rfl (by simp [FileTree.kind]) h.directory (.inl hnone'), ?_, ?_⟩
  · intro other hother
    exact (shapeAt_put_outside _ h.directory hother).trans (h.outside other hother)
  intro names
  show (disk'.put _ _).shapeAt _ = _
  rw [shapeAt_put_below rfl h.directory (by rw [hnone']; simp), h.shapes]
  by_cases hnames : names = front ++ [name]
  · rw [if_pos hnames, if_pos (by rw [hnames])]
    rfl
  · rw [if_neg hnames]
    by_cases hbegins : names <+: front
    · rw [if_pos hbegins, if_pos (hbegins.trans (prefix_append _ _))]
    · rw [if_neg hbegins, if_neg]
      intro h
      rcases prefix_concat_iff.mp (by simpa using h) with h | h
      · exact hnames h
      · exact hbegins h

theorem Clear.mkdirAllFrom_makes (h : Clear host dest place disk) {n : Nat} (hn : front.length ≤ n)
    (hfree : ∀ names, names <+: front → disk.kindAt (place ++ names) ≠ some .file) :
    MakesAlong host dest place front (mkdirAllFrom host n (dest.extend front)) disk disk := by
  -- where a directory stands already, nothing is done
  have hthere : ∀ {make : Os Unit} {front : List FileName},
      disk.kindAt (place ++ front) = some .directory →
        MakesAlong host dest place front (whenMissing host (dest.extend front) make) disk disk := by
    intro make front hdir
    have hattempt : ((stat host (dest.extend front)).attempt disk).result =
        .ok (.ok .directory) := by
      rw [Os.attempt, h.stat_eq_ok.mpr hdir]
    rw [MakesAlong, whenMissing, (looks_stat _).attempt.bind_ok hattempt]
    exact ⟨rfl, .refl h hdir⟩
  induction n generalizing front with
  | zero =>
    have hfront : front = [] := length_eq_zero_iff.mp (by omega)
    subst hfront
    exact hthere (by rw [append_nil, h.directory])
  | succ n ih =>
    rcases eq_nil_or_concat front with rfl | ⟨front, name, rfl⟩
    · exact hthere (by rw [append_nil, h.directory])
    · rw [concat_eq_append] at *
      cases hkind : disk.kindAt (place ++ (front ++ [name])) with
      | some kind =>
        cases kind with
        | symlink absolute target => exact absurd hkind (h.links _ absolute target)
        | file => exact absurd hkind (hfree _ (prefix_refl _))
        | directory => exact hthere hkind
      | none =>
        have hshort : front.length ≤ n := by
          rw [length_append, length_singleton] at hn
          omega
        -- the directories above are made first, if there are any
        have habove : MakesAlong host dest place front
            (Os.when (hasParentText (dest.extend (front ++ [name])))
              (mkdirAllFrom host n (dest.extend (front ++ [name])).dir)) disk disk := by
          rw [Path.dir_extend]
          cases hparent : hasParentText (dest.extend (front ++ [name])) with
          | true =>
            exact ih hshort fun names hnames =>
              hfree names (hnames.trans (prefix_append _ _))
          | false =>
            have hfront : front = [] := by
              simp [hasParentText] at hparent
              exact length_eq_zero_iff.mp (by omega)
            subst hfront
            exact ⟨rfl, .refl h (by rw [append_nil, h.directory])⟩
        have hlast := habove.2.mkdirLast hkind
        rw [MakesAlong, mkdirAllFrom, h.whenMissing_absent hkind, Os.bind_ok habove.1]
        exact hlast

theorem Clear.mkdirAllFrom_fails (h : Clear host dest place disk) {n : Nat}
    (hn : front.length ≤ n) {names : List FileName} (hnames : names <+: front)
    (hfile : disk.kindAt (place ++ names) = some .file) :
    ∃ e, (mkdirAllFrom host n (dest.extend front) disk).result = .error e := by
  induction n generalizing front with
  | zero =>
    have hfront : front = [] := length_eq_zero_iff.mp (by omega)
    subst hfront
    rw [prefix_nil.mp hnames, append_nil, h.directory] at hfile
    cases hfile
  | succ n ih =>
    rcases eq_nil_or_concat front with rfl | ⟨front, name, rfl⟩
    · rw [prefix_nil.mp hnames, append_nil, h.directory] at hfile
      cases hfile
    · rw [concat_eq_append] at *
      by_cases hlast : names = front ++ [name]
      · -- the file is what the path leads to
        subst hlast
        exact ⟨.system .ENOTDIR, by rw [mkdirAllFrom, h.whenMissing_file hfile]⟩
      · -- the file is above, where the recursion fails
        have hnames' : names <+: front := by
          rcases prefix_concat_iff.mp (by simpa using hnames) with h | h
          · exact absurd h hlast
          · exact h
        have hnone : disk.kindAt (place ++ (front ++ [name])) = none := by
          by_contra hstands
          obtain ⟨rest, hrest⟩ := hnames
          have hne : rest ≠ [] := by
            rintro rfl
            rw [append_nil] at hrest
            exact hlast hrest
          rw [← hrest, ← append_assoc] at hstands
          have hdir := FileTree.kindAt_above hne hstands
          rw [hfile] at hdir
          cases hdir
        have hparent : hasParentText (dest.extend (front ++ [name])) = true := by
          have hne : front ≠ [] := by
            rintro rfl
            rw [prefix_nil.mp hnames', append_nil, h.directory] at hfile
            cases hfile
          have hlength := length_pos_iff.mpr hne
          simp only [hasParentText, Path.extend_names, length_append, length_singleton,
            Bool.or_eq_true, decide_eq_true_eq]
          right
          omega
        obtain ⟨e, he⟩ := ih (by rw [length_append, length_singleton] at hn; omega)
          hnames'
        refine ⟨e, ?_⟩
        rw [mkdirAllFrom, h.whenMissing_absent hnone, hparent, Path.dir_extend, Os.when,
          if_pos rfl, Os.bind_error he]

theorem Clear.mkdirAll_makes (h : Clear host dest place disk)
    (hfree : ∀ names, names <+: front → disk.kindAt (place ++ names) ≠ some .file) :
    MakesAlong host dest place front (mkdirAll host (dest.extend front)) disk disk :=
  h.mkdirAllFrom_makes (by simp) hfree

theorem Clear.mkdirAll_fails (h : Clear host dest place disk) {names : List FileName}
    (hnames : names <+: front) (hfile : disk.kindAt (place ++ names) = some .file) :
    ∃ e, (mkdirAll host (dest.extend front) disk).result = .error e :=
  h.mkdirAllFrom_fails (by simp) hnames hfile

end Clear

end Kryndel
