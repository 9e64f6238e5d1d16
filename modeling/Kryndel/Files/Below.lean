import Kryndel.Files.Sandbox

/-!
# Below the root of a sandbox

The component-wise checks of a sandbox make every name below its root lead to the entry of
that name (`Grounded`), so that the functions of `os` touch what they are meant to touch under
a path below the root (`Below`), and leave it so for what comes after them.
-/

namespace Kryndel

open List

open FileTree (NoLinks walkLinks)
open Os (Looks)

section Checks

variable {host : Host} {disk : FileTree}

/-! ## Programs that only look -/

theorem looks_statAt (follow : Bool) (path : Path) : Looks (statAt host follow path) := by
  intro disk
  unfold statAt
  split
  · exact ⟨rfl, rfl⟩
  · split
    all_goals exact ⟨rfl, rfl⟩

theorem looks_lstat (path : Path) : Looks (lstat host path) := looks_statAt false path

theorem looks_stat (path : Path) : Looks (stat host path) := looks_statAt true path

theorem looks_safeComponentsFrom (cur : Path) (parts : List Component) :
    Looks (safeComponentsFrom host cur parts) := by
  induction parts generalizing cur with
  | nil => exact Os.looks_pure true
  | cons part parts ih =>
    apply (looks_lstat (cur.push part)).attempt.bind
    intro result
    split
    · exact Os.looks_pure false
    · exact ih _
    · exact ih _
    · exact Os.looks_pure false

theorem looks_safeComponents (root target : Path) : Looks (safeComponents host root target) := by
  unfold safeComponents
  split
  · exact Os.looks_pure false
  · exact looks_safeComponentsFrom _ _

theorem looks_demand (condition : Bool) (e : FileError) : Looks (Os.demand condition e) := by
  unfold Os.demand
  split
  · exact Os.looks_pure _
  · exact Os.looks_fail _

theorem looks_when {m : Os Unit} (condition : Bool) (h : Looks m) :
    Looks (Os.when condition m) := by
  unfold Os.when
  split
  · exact h
  · exact Os.looks_pure _

theorem looks_allowed {condition : Os Bool} (h : Looks condition) : Looks (allowed condition) :=
  h.bind fun _ => looks_demand _ _

theorem looks_notLink (path : Path) : Looks (notLink host path) := by
  apply (looks_lstat path).attempt.bind
  intro result
  split
  all_goals exact Os.looks_pure _

theorem looks_writable (sb : Sandbox) (path : Path) : Looks (sb.writable host path) :=
  (looks_allowed (looks_safeComponents _ _)).bind fun _ => looks_allowed (looks_notLink _)

theorem looks_resolve (sb : Sandbox) (name : Bytes) (write : Bool) :
    Looks (sb.resolve host name write) := by
  apply (looks_demand _ _).bind
  intro _
  apply (looks_demand _ _).bind
  intro _
  apply (looks_demand _ _).bind
  intro _
  apply (looks_allowed (looks_safeComponents _ _)).bind
  intro _
  apply (looks_when _ (looks_writable sb _)).bind
  intro _
  exact Os.looks_pure _

/-! ## What the checks say -/

theorem demand_eq_ok {condition : Bool} {e : FileError} {u : Unit} :
    (Os.demand condition e disk).result = .ok u ↔ condition = true := by
  cases condition with
  | false =>
    constructor
    all_goals
      intro h
      cases h
  | true => exact ⟨fun _ => rfl, fun _ => rfl⟩

theorem allowed_eq_ok {condition : Os Bool} (h : Looks condition) {u : Unit} :
    (allowed condition disk).result = .ok u ↔ (condition disk).result = .ok true := by
  rw [allowed, h.result_eq_ok]
  simp only [demand_eq_ok]
  constructor
  · intro h
    obtain ⟨ok, hok, rfl⟩ := h
    exact hok
  · intro h
    exact ⟨true, h, rfl⟩

/-- The components of a path have been checked. -/
def Checked (host : Host) (sb : Sandbox) (disk : FileTree) (path : Path) : Prop :=
  (safeComponents host (clean sb.root) path disk).result = .ok true

theorem resolve_checked {sb : Sandbox} {name : Bytes} {write : Bool} {p : Path}
    (h : (sb.resolve host name write disk).result = .ok p) :
    ∃ names : List FileName, components name = names.map .name ∧
      p = (clean sb.root).extend names ∧ Checked host sb disk p ∧
      (write = true → Checked host sb disk p.dir ∧ (notLink host p disk).result = .ok true) := by
  rw [Sandbox.resolve, (looks_demand _ _).result_eq_ok] at h
  obtain ⟨-, -, h⟩ := h
  rw [(looks_demand _ _).result_eq_ok] at h
  obtain ⟨_, hname, h⟩ := h
  rw [(looks_demand _ _).result_eq_ok] at h
  obtain ⟨-, -, h⟩ := h
  rw [(looks_allowed (looks_safeComponents _ _)).result_eq_ok] at h
  obtain ⟨_, hsafe, h⟩ := h
  rw [(looks_when _ (looks_writable sb _)).result_eq_ok] at h
  obtain ⟨_, hwrite, h⟩ := h
  rw [demand_eq_ok, Bool.not_eq_true', Bool.or_eq_false_iff] at hname
  obtain ⟨names, hnames, hjoin⟩ := join_eq_extend sb.named hname.2
  rw [allowed_eq_ok (looks_safeComponents _ _)] at hsafe
  obtain rfl : join sb.root name = p := Except.ok.inj h
  refine ⟨names, hnames, hjoin, hsafe, ?_⟩
  rintro rfl
  change (sb.writable host _ disk).result = _ at hwrite
  rw [Sandbox.writable, (looks_allowed (looks_safeComponents _ _)).result_eq_ok] at hwrite
  obtain ⟨_, hparent, hlink⟩ := hwrite
  rw [allowed_eq_ok (looks_safeComponents _ _)] at hparent
  rw [allowed_eq_ok (looks_notLink _)] at hlink
  exact ⟨hparent, hlink⟩

theorem resolve_write {sb : Sandbox} {name : Bytes} {p : Path}
    (h : (sb.resolve host name true disk).result = .ok p) :
    ∃ names : List FileName, components name = names.map .name ∧
      p = (clean sb.root).extend names ∧ Checked host sb disk p ∧ Checked host sb disk p.dir ∧
      (notLink host p disk).result = .ok true := by
  obtain ⟨names, hnames, hp, hsafe, hwrite⟩ := resolve_checked h
  exact ⟨names, hnames, hp, hsafe, hwrite rfl⟩

theorem lstat_of_safeComponentsFrom {cur : Path} {names front : List FileName}
    (h : (safeComponentsFrom host cur (names.map .name) disk).result = .ok true)
    (hfront : front <+: names) (hne : front ≠ []) {absolute : Bool} {target : List Component} :
    (lstat host (cur.extend front) disk).result ≠ .ok (.symlink absolute target) := by
  induction names generalizing cur front with
  | nil => exact absurd (prefix_nil.mp hfront) hne
  | cons name names ih =>
    rw [map_cons, safeComponentsFrom, (looks_lstat _).attempt.result_eq_ok] at h
    obtain ⟨result, hresult, h⟩ := h
    obtain ⟨first, front, rfl⟩ := exists_cons_of_ne_nil hne
    obtain ⟨rfl, hrest⟩ := cons_prefix_cons.mp hfront
    have hlstat : (lstat host (cur.extend [first]) disk).result = result := Except.ok.inj hresult
    -- Only a node that is no link, or a missing one, lets the loop go on.
    have hnext : (safeComponentsFrom host (cur.extend [first]) (names.map .name) disk).result =
        .ok true ∧ result ≠ .ok (.symlink absolute target) := by
      split at h
      · cases h
      · rename_i kind hkind
        refine ⟨h, ?_⟩
        intro heq
        exact hkind _ _ (Except.ok.inj heq)
      · exact ⟨h, by simp⟩
      · cases h
    cases front with
    | nil =>
      rw [hlstat]
      exact hnext.2
    | cons second front =>
      have hlater := ih hnext.1 hrest (by simp)
      rwa [Path.extend_extend] at hlater

end Checks

/-! ## Below the root -/

section Root

variable {host : Host} {sb : Sandbox} {disk : FileTree} {place p : Location}
  {names front : List FileName}

/-- The root is a directory, and along some names below it there are no links. -/
structure Grounded (host : Host) (sb : Sandbox) (place : Location) (names : List FileName)
    (disk : FileTree) : Prop where
  root : locateIn host true (clean sb.root) disk = .ok place
  directory : disk.kindAt place = some .directory
  links : NoLinks disk place names

/-- An effect on what has the names of its path below the root's place. -/
def Below (sb : Sandbox) (place : Location) (e : Effect) : Prop :=
  ∃ names, e.path = (clean sb.root).extend names ∧ e.location = place ++ names ∧
    (names = [] → e.touch = .opened)

theorem Below.inside {e : Effect} (h : Below sb place e)
    (hroot : locateIn host true (clean sb.root) disk = .ok place) :
    sb.Inside host disk e := by
  obtain ⟨names, hpath, hlocation, htouch⟩ := h
  exact ⟨place, names, hroot, hpath, hlocation, htouch⟩

theorem locateIn_extend (follow : Bool) (path : Path) (names : List FileName) (disk : FileTree) :
    locateIn host follow (path.extend names) disk =
      walkLinks disk follow 40 (if path.absolute then [] else host.cwd)
        (path.parts ++ names.map .name) := by
  rw [locateIn, FileTree.locate, Path.parts_extend]
  rfl

theorem locateIn_behind {path : Path} {follow : Bool} (hne : names ≠ [])
    (hpath : locateIn host true path disk = .ok place)
    (hdir : disk.kindAt place = some .directory) :
    ∃ m, locateIn host follow (path.extend names) disk =
      walkLinks disk follow m place (names.map .name) := by
  rw [locateIn_extend]
  exact FileTree.walkLinks_append (by simpa using hne) hdir hpath

variable {follow : Bool}

theorem directory_of_located {path : Path} (hne : names ≠ [])
    (h : locateIn host follow (path.extend names) disk = .ok p) :
    ∃ d, locateIn host true path disk = .ok d ∧ disk.kindAt d = some .directory := by
  obtain ⟨name, rest, rfl⟩ := exists_cons_of_ne_nil hne
  rw [locateIn_extend] at h
  exact FileTree.walkLinks_name_directory h

theorem grounded_of_checked (hchecked : Checked host sb disk ((clean sb.root).extend names))
    (hroot : locateIn host true (clean sb.root) disk = .ok place)
    (hdir : disk.kindAt place = some .directory) : Grounded host sb place names disk := by
  refine ⟨hroot, hdir, ?_⟩
  intro front hne hfront absolute target hkind
  unfold Checked at hchecked
  rw [safeComponents, rel_extend] at hchecked
  have hparts : (⟨false, 0, names, by simp⟩ : Path).parts = names.map Component.name := by
    simp [Path.parts]
  apply @lstat_of_safeComponentsFrom host disk _ _ _ hchecked hfront hne absolute target
  -- A link at this place is what `Lstat` of the path sees.
  obtain ⟨m, hlocate⟩ := @locateIn_behind host disk place front _ false hne hroot hdir
  rw [FileTree.walkLinks_stands (by simp [hkind])] at hlocate
  simp [lstat, statAt, hlocate, hkind]

theorem Grounded.located (h : Grounded host sb place names disk) (hfront : front <+: names)
    (hne : front ≠ [])
    (hlocate : locateIn host follow ((clean sb.root).extend front) disk = .ok p) :
    p = place ++ front := by
  obtain ⟨m, hwalk⟩ := @locateIn_behind host disk place front _ follow hne h.root h.directory
  rw [hwalk] at hlocate
  exact FileTree.walkLinks_names (h.links.of_prefix hfront) hlocate

theorem Grounded.located_last (h : Grounded host sb place names disk) (hfront : front <+: names)
    {name : FileName}
    (hlocate : locateIn host false ((clean sb.root).extend (front ++ [name])) disk = .ok p) :
    p = place ++ (front ++ [name]) := by
  obtain ⟨m, hwalk⟩ :=
    @locateIn_behind host disk place (front ++ [name]) _ false (by simp) h.root h.directory
  rw [hwalk] at hlocate
  rw [FileTree.walkLinks_names_last (h.links.of_prefix hfront) hlocate, append_assoc]

theorem checked_located (hchecked : Checked host sb disk ((clean sb.root).extend names))
    (hne : names ≠ [])
    (hlocate : locateIn host follow ((clean sb.root).extend names) disk = .ok p) :
    ∃ place, Grounded host sb place names disk ∧ p = place ++ names := by
  obtain ⟨place, hroot, hdir⟩ := directory_of_located hne hlocate
  have hgrounded := grounded_of_checked hchecked hroot hdir
  exact ⟨place, hgrounded, hgrounded.located (prefix_refl _) hne hlocate⟩

/-- With a new node without entries in a directory, or a file instead of another one, a tree
    grows. -/
theorem grows_put {parent : Location} {name : FileName} {node : FileTree}
    (hdir : disk.kindAt parent = some .directory)
    (hold : disk.kindAt (parent ++ [name]) = none ∨
      disk.kindAt (parent ++ [name]) = some .file ∧ node.kind = .file) :
    FileTree.Grows disk (disk.put (parent ++ [name]) (some node)) := by
  intro other kind hkind
  rw [FileTree.kindAt_put (some node) hdir]
  split
  · rename_i hinitial
    obtain ⟨rest, rfl⟩ := hinitial
    by_cases hne : rest = []
    · subst hne
      rw [append_nil] at hkind
      rcases hold with hold | ⟨hold, hfile⟩
      · rw [hold] at hkind
        cases hkind
      · rw [hold] at hkind
        simp [← hkind, hfile]
    · have hdir' := FileTree.kindAt_above hne (by rw [hkind]; simp)
      rcases hold with hold | ⟨hold, -⟩ <;> rw [hold] at hdir' <;> cases hdir'
  · exact hkind

/-- A new node without entries in a directory, or a file instead of another one, adds no links
    and changes nothing else. -/
theorem Grounded.put {parent : Location} {name : FileName} {node : FileTree}
    (h : Grounded host sb place names disk) (hdir : disk.kindAt parent = some .directory)
    (hentries : node.entries = [])
    (hlink : ∀ absolute target, node.kind ≠ .symlink absolute target)
    (hold : disk.kindAt (parent ++ [name]) = none ∨
      disk.kindAt (parent ++ [name]) = some .file ∧ node.kind = .file) :
    Grounded host sb place names (disk.put (parent ++ [name]) (some node)) := by
  have hput := @FileTree.kindAt_put disk parent name (some node) hdir
  have hbelow : ∀ rest, rest ≠ [] → node.kindAt rest = none := by
    intro rest hne
    obtain ⟨first, rest, rfl⟩ := exists_cons_of_ne_nil hne
    simp [FileTree.kindAt_cons, hentries]
  have hgrows := grows_put hdir hold
  refine ⟨FileTree.walkLinks_grows hgrows (by rw [h.directory]; simp) h.root,
    hgrows _ _ h.directory, ?_⟩
  intro front hne hfront absolute target
  rw [hput]
  split
  · by_cases hlast : (place ++ front).drop (parent.length + 1) = []
    · rw [hlast]
      simpa using hlink absolute target
    · simp [hbelow _ hlast]
  · exact h.links front hne hfront absolute target

end Root

/-! ## Operations below the root -/

section Operations

variable {host : Host} {sb : Sandbox} {disk : FileTree} {place p : Location}
  {names front : List FileName} {name : FileName} {path : Path}

/-- Nothing stands where a path leads to, so that something can be created there. -/
def Missing (host : Host) (path : Path) (disk : FileTree) : Prop :=
  path.names ≠ [] ∧ ∃ p, locateIn host false path disk = .ok p ∧ disk.kindAt p = none

theorem create_cases (host : Host) (path : Path) (node disk : FileTree) :
    (path.names ≠ [] ∧ ∃ p, locateIn host false path disk = .ok p ∧ disk.kindAt p = none ∧
      create host path node disk =
        ⟨.ok (), disk.put p (some node), [⟨.created, path, p⟩]⟩) ∨
    (¬ Missing host path disk ∧ ∃ e, create host path node disk = ⟨.error e, disk, []⟩ ∧
      ∀ p, path.names ≠ [] → locateIn host false path disk = .ok p →
        e = .system .EEXIST) := by
  unfold create
  by_cases hnames : path.names = []
  · rw [if_pos hnames]
    exact Or.inr ⟨fun h => h.1 hnames, _, rfl, fun _ h => absurd hnames h⟩
  · rw [if_neg hnames]
    cases hlocate : locateIn host false path disk with
    | error e =>
      refine Or.inr ⟨?_, _, rfl, by simp⟩
      intro h
      obtain ⟨-, p, hp, -⟩ := h
      rw [hlocate] at hp
      cases hp
    | ok p =>
      by_cases hkind : disk.kindAt p = none
      · exact Or.inl ⟨hnames, p, rfl, hkind, by simp [hkind]⟩
      · refine Or.inr ⟨?_, .system .EEXIST, by simp [hkind, Os.fail], fun _ _ _ => rfl⟩
        intro h
        obtain ⟨-, p', hp, hkind'⟩ := h
        rw [hlocate] at hp
        obtain rfl := Except.ok.inj hp
        exact hkind hkind'

theorem create_keeps {node : FileTree} (hfront : front <+: names) (hentries : node.entries = [])
    (hlink : ∀ absolute target, node.kind ≠ .symlink absolute target) :
    Os.Keeps (Grounded host sb place names) (Below sb place)
      (create host ((clean sb.root).extend (front ++ [name])) node) := by
  intro disk hinv
  rcases create_cases host ((clean sb.root).extend (front ++ [name])) node disk with hnew | hold
  · obtain ⟨-, p, hlocate, hmissing, hcreate⟩ := hnew
    have hp := hinv.located_last hfront hlocate
    rw [hcreate]
    constructor
    · intro e he
      obtain rfl := mem_singleton.mp he
      exact ⟨front ++ [name], rfl, hp, by simp⟩
    · have hparts := hlocate
      rw [locateIn_extend, map_append, ← append_assoc] at hparts
      obtain ⟨parent, last, rfl, hdir⟩ := FileTree.walkLinks_missing hmissing hparts
      exact hinv.put hdir hentries hlink (Or.inl hmissing)
  · obtain ⟨-, e, hcreate, -⟩ := hold
    rw [hcreate]
    exact ⟨by simp, hinv⟩

theorem stat_eq {kind : Kind} (hlocate : locateIn host true path disk = .ok p)
    (hkind : disk.kindAt p = some kind) : stat host path disk = ⟨.ok kind, disk, []⟩ := by
  simp [stat, statAt, hlocate, hkind]

theorem whenMissing_directory {make : Os Unit} (hlocate : locateIn host true path disk = .ok p)
    (hdir : disk.kindAt p = some .directory) :
    whenMissing host path make disk = ⟨.ok (), disk, []⟩ := by
  have hstat : ((stat host path).attempt disk).result = .ok (.ok .directory) := by
    rw [Os.attempt, stat_eq hlocate hdir]
  rw [whenMissing, (looks_stat path).attempt.bind_ok hstat]
  rfl

variable {good : Effect → Prop} {inv : FileTree → Prop}

theorem whenMissing_keeps {make : Os Unit} (h : Os.Keeps inv good make) :
    Os.Keeps inv good (whenMissing host path make) := by
  apply (looks_stat path).attempt.keeps.bind
  intro result
  split
  · exact (Os.looks_pure ()).keeps
  · exact (Os.looks_fail _).keeps
  · exact h

theorem mkdirLast_keeps (hfront : front <+: names) :
    Os.Keeps (Grounded host sb place names) (Below sb place)
      (mkdirLast host ((clean sb.root).extend (front ++ [name]))) := by
  have hcreate : Os.Keeps (Grounded host sb place names) (Below sb place)
      (mkdir host ((clean sb.root).extend (front ++ [name]))) :=
    create_keeps hfront rfl (by simp [FileTree.kind])
  apply hcreate.attempt.bind
  intro result
  split
  · exact (Os.looks_pure ()).keeps
  · apply (looks_lstat _).attempt.keeps.bind
    intro result
    split
    · exact (Os.looks_pure ()).keeps
    · exact (Os.looks_fail _).keeps

theorem when_keeps {condition : Bool} {m : Os Unit} (h : Os.Keeps inv good m) :
    Os.Keeps inv good (Os.when condition m) := by
  unfold Os.when
  split
  · exact h
  · exact (Os.looks_pure ()).keeps

theorem mkdirAllFrom_root (n : Nat) :
    Os.Keeps (Grounded host sb place names) (Below sb place)
      (mkdirAllFrom host n ((clean sb.root).extend [])) := by
  intro disk hinv
  rw [Path.extend_nil]
  cases n
  all_goals
    rw [mkdirAllFrom, whenMissing_directory hinv.root hinv.directory]
    exact ⟨by simp, hinv⟩

theorem mkdirAllFrom_keeps (n : Nat) (hfront : front <+: names) :
    Os.Keeps (Grounded host sb place names) (Below sb place)
      (mkdirAllFrom host n ((clean sb.root).extend front)) := by
  induction n generalizing front with
  | zero =>
    rcases eq_nil_or_concat front with rfl | ⟨init, name, rfl⟩
    · exact mkdirAllFrom_root 0
    · rw [concat_eq_append] at hfront ⊢
      exact whenMissing_keeps (mkdirLast_keeps ((prefix_append _ _).trans hfront))
  | succ n ih =>
    rcases eq_nil_or_concat front with rfl | ⟨init, name, rfl⟩
    · exact mkdirAllFrom_root (n + 1)
    · rw [concat_eq_append] at hfront ⊢
      have hinit : init <+: names := (prefix_append _ _).trans hfront
      apply whenMissing_keeps
      rw [Path.dir_extend]
      exact (when_keeps (ih hinit)).bind fun _ => mkdirLast_keeps hinit

theorem createTempFrom_keeps (k tries : Nat) (hfront : front <+: names) :
    Os.Keeps (Grounded host sb place names) (Below sb place)
      (createTempFrom host ((clean sb.root).extend front) k tries) := by
  induction tries generalizing k with
  | zero => exact (Os.looks_fail _).keeps
  | succ tries ih =>
    rw [createTempFrom, Path.extend_child]
    have hcreate : Os.Keeps (Grounded host sb place names) (Below sb place)
        (create host ((clean sb.root).extend (front ++ [host.tempName k])) (.file [])) :=
      create_keeps hfront rfl (by simp [FileTree.kind])
    apply hcreate.attempt.bind
    intro result
    split
    · exact (Os.looks_pure _).keeps
    · exact ih (k + 1)
    · exact (Os.looks_fail _).keeps

theorem writeFile_keeps {data : Bytes} (hfront : front <+: names) :
    Os.Keeps (Grounded host sb place names) (Below sb place)
      (writeFile host ((clean sb.root).extend (front ++ [name])) data) := by
  intro disk hinv
  unfold writeFile
  cases hlocate : locateIn host false ((clean sb.root).extend (front ++ [name])) disk with
  | error e => exact ⟨by simp [Os.fail], hinv⟩
  | ok p =>
    have hp := hinv.located_last hfront hlocate
    dsimp only
    split
    · exact ⟨by simp [Os.fail], hinv⟩
    · rename_i hwritable
      simp only [Bool.or_eq_true, decide_eq_true_eq, not_or, Decidable.not_not] at hwritable
      constructor
      · intro e he
        obtain rfl := mem_singleton.mp he
        exact ⟨front ++ [name], rfl, hp, by simp⟩
      · have hfile := hwritable.2
        rw [hp, ← append_assoc] at hfile ⊢
        have hdir := @FileTree.kindAt_above disk (place ++ front) [name] (by simp)
          (by rw [hfile]; simp)
        exact hinv.put hdir rfl (by simp [FileTree.kind]) (Or.inr ⟨hfile, rfl⟩)

theorem remove_ends (hfront : front <+: names) :
    Os.Ends (Grounded host sb place names) (Below sb place)
      (remove host ((clean sb.root).extend (front ++ [name]))) := by
  intro disk hinv e he
  unfold remove at he
  split at he
  · cases he
  · split at he
    · cases he
    · rename_i p hlocate
      split at he
      · cases he
      · split at he
        · obtain rfl := mem_singleton.mp he
          exact ⟨front ++ [name], rfl, hinv.located_last hfront hlocate, by simp⟩
        · cases he

theorem renameCall_cases (host : Host) (old new : Path) (disk : FileTree) :
    (old.names ≠ [] ∧ new.names ≠ [] ∧ ∃ source target, locateIn host false old disk = .ok source ∧
      locateIn host false new disk = .ok target ∧ disk.kindAt source ≠ none ∧
      source ≠ target ∧ ¬ source <+: target ∧
      (renameCall host old new disk).effects =
        [⟨.removed, old, source⟩, ⟨.created, new, target⟩] ∧
      (renameCall host old new disk).result = .ok ()) ∨
    ((renameCall host old new disk).effects = [] ∧ (renameCall host old new disk).disk = disk) := by
  unfold renameCall
  split
  · exact Or.inr ⟨rfl, rfl⟩
  · rename_i hnames
    simp only [Bool.or_eq_true, decide_eq_true_eq, not_or] at hnames
    cases hold : locateIn host false old disk with
    | error e => exact Or.inr ⟨rfl, rfl⟩
    | ok source =>
      cases hnew : locateIn host false new disk with
      | error e => exact Or.inr ⟨rfl, rfl⟩
      | ok target =>
        dsimp only
        cases hnode : disk.get source with
        | none => exact Or.inr ⟨rfl, rfl⟩
        | some node =>
          dsimp only
          have hkind : disk.kindAt source ≠ none := by simp [FileTree.kindAt, hnode]
          split_ifs with hsame hinside hdirectory hfile
          · exact Or.inr ⟨rfl, rfl⟩
          · exact Or.inr ⟨rfl, rfl⟩
          · exact Or.inr ⟨rfl, rfl⟩
          · exact Or.inr ⟨rfl, rfl⟩
          · exact Or.inl ⟨hnames.1, hnames.2, source, target, rfl, rfl, hkind, hsame, hinside,
              rfl, rfl⟩

end Operations

/-! ## Renaming -/

section Rename

variable {host : Host} {sb : Sandbox} {disk : FileTree} {place p : Location}
  {names front : List FileName} {name : FileName} {path old new : Path}

theorem notLink_eq_ok (h : (notLink host path disk).result = .ok true)
    (hlocate : locateIn host false path disk = .ok p) (absolute : Bool)
    (target : List Component) : disk.kindAt p ≠ some (.symlink absolute target) := by
  intro hkind
  have hlstat : ((lstat host path).attempt disk).result = .ok (.ok (.symlink absolute target)) := by
    simp [Os.attempt, lstat, statAt, hlocate, hkind]
  rw [notLink, (looks_lstat path).attempt.bind_ok hlstat] at h
  cases h

theorem locate_eq (hlink : (notLink host path disk).result = .ok true)
    (hlocate : locateIn host true path disk = .ok p) : locateIn host false path disk = .ok p := by
  obtain ⟨q, hq, hsame⟩ := FileTree.walkLinks_unfollow hlocate
  rcases hsame with rfl | ⟨absolute, target, hkind⟩
  · exact hq
  · exact absurd hkind (notLink_eq_ok hlink hq absolute target)

theorem looks_sameFile : Looks (sameFile host old new) := fun _ => ⟨rfl, rfl⟩

/-- Renaming touches what the system call touches, and that only when the new path does not
    lead to a directory, or both lead to the same one. -/
theorem mem_rename {e : Effect} (h : e ∈ (rename host old new disk).effects) :
    e ∈ (renameCall host old new disk).effects ∧
      ((lstat host new disk).result = .ok .directory →
        locateIn host false old disk = locateIn host false new disk) := by
  rw [rename, (looks_lstat new).attempt.mem_effects] at h
  obtain ⟨result, hresult, h⟩ := h
  have hlstat : (lstat host new disk).result = result := Except.ok.inj hresult
  split at h
  · rw [(looks_lstat old).mem_effects] at h
    obtain ⟨_, -, h⟩ := h
    rw [looks_sameFile.mem_effects] at h
    obtain ⟨same, hsame, h⟩ := h
    rw [(looks_demand _ _).mem_effects] at h
    obtain ⟨_, hdemand, h⟩ := h
    simp only [demand_eq_ok, Bool.and_eq_true] at hdemand
    have hfile : locateIn host false old disk = locateIn host false new disk := by
      have hvalue := Except.ok.inj hsame
      rw [hdemand.2] at hvalue
      exact of_decide_eq_true hvalue
    exact ⟨h, fun _ => hfile⟩
  · rename_i hother
    refine ⟨h, ?_⟩
    intro hdir
    rw [hlstat] at hdir
    exact absurd hdir hother

theorem rename_error {e : FileError} (h : (rename host old new disk).result = .error e) :
    (rename host old new disk).disk = disk := by
  have hcall : (renameCall host old new disk).result = .error e →
      (renameCall host old new disk).disk = disk := by
    intro herror
    rcases renameCall_cases host old new disk with hmoved | hnothing
    · obtain ⟨-, -, -, -, -, -, -, -, -, -, hok⟩ := hmoved
      rw [hok] at herror
      cases herror
    · exact hnothing.2
  have hlooks : Looks (lstat host new).attempt := (looks_lstat new).attempt
  rw [rename] at h ⊢
  cases hresult : ((lstat host new).attempt disk).result with
  | error err => exact absurd hresult (by simp [Os.attempt])
  | ok result =>
    rw [hlooks.bind_ok hresult] at h ⊢
    split at h
    · cases hold : (lstat host old disk).result with
      | error err => rw [(looks_lstat old).bind_error hold]
      | ok kind =>
        rw [(looks_lstat old).bind_ok hold] at h ⊢
        cases hsame : (sameFile host old new disk).result with
        | error err => rw [looks_sameFile.bind_error hsame]
        | ok same =>
          rw [looks_sameFile.bind_ok hsame] at h ⊢
          cases hdemand :
            (Os.demand (decide (old ≠ new) && same) (.system .EEXIST) disk).result with
          | error err => rw [(looks_demand _ _).bind_error hdemand]
          | ok u =>
            rw [(looks_demand _ _).bind_ok hdemand] at h ⊢
            exact hcall h
    · exact hcall h

end Rename

end Kryndel
