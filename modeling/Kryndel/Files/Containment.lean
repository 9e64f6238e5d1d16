import Kryndel.Files.Below

/-!
# What a sandbox contains

Under a name of something below the root, every operation stays inside of the sandbox where
the root is a directory. What is left are the operations on the root itself, and those for
which it has to be made; `contained_iff` says exactly when one of these reaches out of it.
-/

namespace Kryndel

open List

open Os (Looks)

section Write

variable {host : Host} {sb : Sandbox} {disk : FileTree} {place p : Location}
  {names front : List FileName} {name temp : FileName} {path : Path}

/-! ## Writing below the root -/

/-- Filling a temporary file and renaming it touches what is below the root; after a failure
    the temporary file can still be removed. -/
theorem fillAndRename_below {data : Bytes} (hfront : front <+: names)
    (hroot : names = [] → (clean sb.root).names = [])
    (hinv : Grounded host sb place names disk) :
    (∀ e ∈ (sb.fillAndRename host ((clean sb.root).extend (front ++ [temp]))
        ((clean sb.root).extend names) data disk).effects, Below sb place e) ∧
      ∀ err, (sb.fillAndRename host ((clean sb.root).extend (front ++ [temp]))
          ((clean sb.root).extend names) data disk).result = .error err →
        Grounded host sb place names (sb.fillAndRename host
          ((clean sb.root).extend (front ++ [temp])) ((clean sb.root).extend names) data
            disk).disk := by
  -- Up to the last step the invariant is kept, whatever the outcome.
  have hrename : ∀ disk, Grounded host sb place names disk →
      (∀ e ∈ (rename host ((clean sb.root).extend (front ++ [temp]))
        ((clean sb.root).extend names) disk).effects, Below sb place e) ∧
      ∀ err, (rename host ((clean sb.root).extend (front ++ [temp]))
          ((clean sb.root).extend names) disk).result = .error err →
        Grounded host sb place names (rename host ((clean sb.root).extend (front ++ [temp]))
          ((clean sb.root).extend names) disk).disk := by
    intro disk hinv
    constructor
    · intro e he
      obtain ⟨he, -⟩ := mem_rename he
      rcases renameCall_cases host ((clean sb.root).extend (front ++ [temp]))
        ((clean sb.root).extend names) disk with hmoved | hnothing
      · obtain ⟨-, hnew, source, target, hsource, htarget, -, -, -, heffects, -⟩ := hmoved
        have hne : names ≠ [] := by
          rintro rfl
          exact hnew (by simpa using hroot rfl)
        rw [heffects] at he
        rcases mem_cons.mp he with rfl | he
        · exact ⟨front ++ [temp], rfl, hinv.located_last hfront hsource, by simp⟩
        · obtain rfl := mem_singleton.mp he
          exact ⟨names, rfl, hinv.located (prefix_refl _) hne htarget, fun h => absurd h hne⟩
      · rw [hnothing.1] at he
        cases he
    · intro err herr
      rw [rename_error herr]
      exact hinv
  obtain ⟨hgood, hinv'⟩ :=
    @writeFile_keeps host sb place names front temp data hfront disk hinv
  rw [Sandbox.fillAndRename]
  cases hwrite : (writeFile host ((clean sb.root).extend (front ++ [temp])) data disk).result with
  | error err =>
    rw [Os.bind_error hwrite]
    exact ⟨hgood, fun _ _ => hinv'⟩
  | ok u =>
    rw [Os.bind_ok hwrite]
    generalize (writeFile host ((clean sb.root).extend (front ++ [temp])) data disk).disk = disk'
      at hinv' ⊢
    have hsafe : Looks (allowed (safeComponents host (clean sb.root)
        ((clean sb.root).extend names).dir)) := looks_allowed (looks_safeComponents _ _)
    have hlink : Looks (allowed (notLink host ((clean sb.root).extend names))) :=
      looks_allowed (looks_notLink _)
    cases hchecked : (allowed (safeComponents host (clean sb.root)
        ((clean sb.root).extend names).dir) disk').result with
    | error err =>
      rw [hsafe.bind_error hchecked]
      exact ⟨by simpa using hgood, fun _ _ => hinv'⟩
    | ok u =>
      rw [hsafe.bind_ok hchecked]
      cases hnolink : (allowed (notLink host ((clean sb.root).extend names)) disk').result with
      | error err =>
        rw [hlink.bind_error hnolink]
        exact ⟨by simpa using hgood, fun _ _ => hinv'⟩
      | ok u =>
        rw [hlink.bind_ok hnolink]
        obtain ⟨hgood', herror⟩ := hrename disk' hinv'
        refine ⟨?_, herror⟩
        intro e he
        rcases mem_append.mp he with he | he
        · exact hgood e he
        · exact hgood' e he

theorem writeTo_below {data : Bytes} (hfront : front <+: names)
    (hdir : ((clean sb.root).extend names).dir = (clean sb.root).extend front)
    (hroot : names = [] → (clean sb.root).names = []) :
    Os.Ends (Grounded host sb place names) (Below sb place)
      (sb.writeTo host ((clean sb.root).extend names) data) := by
  unfold Sandbox.writeTo
  rw [hdir]
  have hsafe : ∀ path, Os.Keeps (Grounded host sb place names) (Below sb place)
      (allowed (safeComponents host (clean sb.root) path)) :=
    fun path => (looks_allowed (looks_safeComponents _ path)).keeps
  apply Os.Ends.after (hsafe _)
  intro _
  apply Os.Ends.after (mkdirAllFrom_keeps _ hfront)
  intro _
  apply Os.Ends.after (hsafe _)
  intro _
  apply Os.Ends.after (createTempFrom_keeps _ _ hfront)
  intro temp disk hinv e he
  rw [Sandbox.writeThrough, hdir, Path.extend_child] at he
  obtain ⟨hgood, herror⟩ := @fillAndRename_below host sb disk place names front temp data hfront
    hroot hinv
  rcases Os.mem_effects_bind.mp he with he | he
  · exact hgood e he
  · obtain ⟨result, hresult, he⟩ := he
    have hvalue := Except.ok.inj hresult
    split at he
    · cases he
    · rename_i err
      rcases Os.mem_effects_bind.mp he with he | he
      · exact remove_ends hfront _ (herror err hvalue) e he
      · obtain ⟨_, -, he⟩ := he
        cases he

end Write

/-! ## Making directories above the root -/

section Absent

variable {host : Host} {sb : Sandbox} {disk : FileTree} {place p : Location}
  {names front : List FileName} {name : FileName} {path : Path}

/-- The first names of a path. -/
def Path.upTo (path : Path) (k : Nat) : Path :=
  { path with names := path.names.take k }

/-- A path, or a directory above it, is missing in a directory, so that it can be made. -/
def Absent (host : Host) (path : Path) (disk : FileTree) : Prop :=
  ∃ k ≤ path.names.length, Missing host (path.upTo k) disk

theorem Path.upTo_length (path : Path) : path.upTo path.names.length = path := by
  simp [Path.upTo]

variable {k : Nat}

theorem Path.upTo_extend (path : Path) (names : List FileName) (hk : k ≤ path.names.length) :
    (path.extend names).upTo k = path.upTo k := by
  simp [Path.upTo, Path.extend, take_append_of_le_length hk]

theorem Path.upTo_dir {path : Path} (hk : k < path.names.length) :
    path.dir.upTo k = path.upTo k := by
  have hne : path.names ≠ [] := by
    intro hnil
    simp [hnil] at hk
  have htake : path.names.dropLast.take k = path.names.take k := by
    rw [dropLast_eq_take, take_take]
    congr 1
    omega
  simp [Path.upTo, Path.dir, hne, htake]

theorem length_dir_names (path : Path) : path.dir.names.length = path.names.length - 1 := by
  unfold Path.dir
  split
  · simp
  · rename_i hnil
    simp only [ne_eq, Decidable.not_not] at hnil
    simp [hnil]

theorem Absent.of_dir (h : Absent host path.dir disk) : Absent host path disk := by
  obtain ⟨k, hk, hmissing⟩ := h
  rw [length_dir_names] at hk
  by_cases hlast : k < path.names.length
  · rw [Path.upTo_dir hlast] at hmissing
    exact ⟨k, Nat.le_of_lt hlast, hmissing⟩
  · have hzero : path.names.length = 0 := by omega
    have hnames : (path.dir.upTo k).names = [] := by
      have hdir : path.dir.names.length = 0 := by rw [length_dir_names, hzero]
      simp [Path.upTo, length_eq_zero_iff.mp hdir]
    exact absurd hnames hmissing.1

/-- A program does nothing, whatever its result is. -/
def Idle {α : Type} (m : Os α) (disk : FileTree) : Prop :=
  (m disk).effects = [] ∧ (m disk).disk = disk

variable {β α : Type}

variable {f : α → Os β} {m : Os α}

theorem Idle.bind (h : Idle m disk) (hf : ∀ a, (m disk).result = .ok a → Idle (f a) disk) :
    Idle (m >>= f) disk := by
  cases hresult : (m disk).result with
  | error e =>
    rw [Idle, Os.bind_error hresult]
    exact h
  | ok a =>
    obtain ⟨heffects, hdisk⟩ := hf a hresult
    rw [Idle, Os.bind_ok hresult, h.1, h.2, heffects, hdisk]
    exact ⟨rfl, rfl⟩

theorem idle_of_looks (h : Looks m) : Idle m disk :=
  ⟨(h disk).2, (h disk).1⟩

theorem idle_create {node : FileTree} (h : ¬ Missing host path disk) :
    Idle (create host path node) disk := by
  rcases create_cases host path node disk with hnew | hold
  · obtain ⟨hnames, p, hlocate, hmissing, -⟩ := hnew
    exact absurd ⟨hnames, p, hlocate, hmissing⟩ h
  · obtain ⟨-, e, hcreate, -⟩ := hold
    rw [Idle, hcreate]
    exact ⟨rfl, rfl⟩

theorem idle_mkdirLast (h : ¬ Missing host path disk) : Idle (mkdirLast host path) disk := by
  have hcreate : Idle (mkdir host path).attempt disk := idle_create h
  apply hcreate.bind
  intro result _
  split
  · exact idle_of_looks (Os.looks_pure ())
  · apply idle_of_looks
    apply (looks_lstat path).attempt.bind
    intro result
    split
    · exact Os.looks_pure ()
    · exact Os.looks_fail _

theorem idle_whenMissing {make : Os Unit} (h : Idle make disk) :
    Idle (whenMissing host path make) disk := by
  apply (idle_of_looks (looks_stat path).attempt).bind
  intro result _
  split
  · exact idle_of_looks (Os.looks_pure ())
  · exact idle_of_looks (Os.looks_fail _)
  · exact h

theorem idle_when {condition : Bool} {m : Os Unit} (h : Idle m disk) :
    Idle (Os.when condition m) disk := by
  unfold Os.when
  split
  · exact h
  · exact idle_of_looks (Os.looks_pure ())

theorem not_missing_of_not_absent (h : ¬ Absent host path disk) : ¬ Missing host path disk := by
  intro hmissing
  apply h
  refine ⟨path.names.length, Nat.le_refl _, ?_⟩
  rwa [Path.upTo_length]

theorem idle_mkdirAllFrom (n : Nat) (h : ¬ Absent host path disk) :
    Idle (mkdirAllFrom host n path) disk := by
  induction n generalizing path with
  | zero => exact idle_whenMissing (idle_mkdirLast (not_missing_of_not_absent h))
  | succ n ih =>
    apply idle_whenMissing
    apply (idle_when (ih fun hdir => h hdir.of_dir)).bind
    intro _ _
    exact idle_mkdirLast (not_missing_of_not_absent h)

/-- A path is no directory and cannot be made one. -/
structure Unrooted (host : Host) (root : Path) (disk : FileTree) : Prop where
  directory : ∀ d, locateIn host true root disk = .ok d → disk.kindAt d ≠ some .directory
  absent : ¬ Absent host root disk

variable {root : Path}

theorem unrooted_or_directory (h : ¬ Absent host root disk) :
    Unrooted host root disk ∨
      ∃ d, locateIn host true root disk = .ok d ∧ disk.kindAt d = some .directory := by
  by_cases hdir : ∃ d, locateIn host true root disk = .ok d ∧ disk.kindAt d = some .directory
  · exact Or.inr hdir
  · exact Or.inl ⟨fun d hd hkind => hdir ⟨d, hd, hkind⟩, h⟩

/-- A program does nothing and fails. -/
def Fails {α : Type} (m : Os α) (disk : FileTree) : Prop :=
  Idle m disk ∧ ∃ e, (m disk).result = .error e

theorem fails_fail (e : FileError) : Fails (Os.fail e : Os α) disk :=
  ⟨⟨rfl, rfl⟩, e, rfl⟩

theorem Fails.after (h : Idle m disk) (hf : ∀ a, (m disk).result = .ok a → Fails (f a) disk) :
    Fails (m >>= f) disk := by
  refine ⟨h.bind fun a ha => (hf a ha).1, ?_⟩
  cases hresult : (m disk).result with
  | error e => exact ⟨e, by rw [Os.bind_error hresult]⟩
  | ok a =>
    obtain ⟨e, he⟩ := (hf a hresult).2
    refine ⟨e, ?_⟩
    rw [Os.bind_ok hresult, h.2]
    exact he

theorem Fails.bind (h : Fails m disk) :
    Fails (m >>= f) disk := by
  apply Fails.after h.1
  intro a ha
  obtain ⟨e, he⟩ := h.2
  rw [he] at ha
  cases ha

theorem Unrooted.not_located (h : Unrooted host root disk) {follow : Bool} (hne : front ≠ []) :
    locateIn host follow (root.extend front) disk ≠ .ok p := by
  intro hlocate
  obtain ⟨d, hd, hdir⟩ := directory_of_located hne hlocate
  exact h.directory d hd hdir

theorem Unrooted.not_directory (h : Unrooted host root disk) (follow : Bool)
    (front : List FileName) :
    (statAt host follow (root.extend front) disk).result ≠ .ok .directory := by
  intro hstat
  unfold statAt at hstat
  cases hlocate : locateIn host follow (root.extend front) disk with
  | error e => simp [hlocate, Os.fail] at hstat
  | ok p =>
    rcases eq_or_ne front [] with rfl | hne
    · simp only [hlocate] at hstat
      cases hkind : disk.kindAt p with
      | none => simp [hkind, Os.fail] at hstat
      | some kind =>
        simp only [hkind, Except.ok.injEq] at hstat
        rw [Path.extend_nil] at hlocate
        rw [hstat] at hkind
        cases follow with
        | true => exact h.directory p hlocate hkind
        | false => exact h.directory p (FileTree.walkLinks_follow (by simp [hkind]) hlocate) hkind
    · exact h.not_located hne hlocate

theorem Unrooted.mkdirLast (h : Unrooted host root disk) (front : List FileName) :
    Fails (mkdirLast host (root.extend front)) disk := by
  have hmissing : ¬ Missing host (root.extend front) disk := by
    rcases eq_or_ne front [] with rfl | hne
    · rw [Path.extend_nil]
      exact not_missing_of_not_absent h.absent
    · intro hmissing
      obtain ⟨-, p, hlocate, -⟩ := hmissing
      exact h.not_located hne hlocate
  rcases create_cases host (root.extend front) (.directory []) disk with hnew | hold
  · obtain ⟨hnames, p, hlocate, hkind, -⟩ := hnew
    exact absurd ⟨hnames, p, hlocate, hkind⟩ hmissing
  · obtain ⟨-, e, hcreate, -⟩ := hold
    have hidle : Idle (mkdir host (root.extend front)).attempt disk := idle_create hmissing
    apply Fails.after hidle
    intro result hresult
    rw [Os.attempt, mkdir, hcreate] at hresult
    obtain rfl := Except.ok.inj hresult
    apply Fails.after (idle_of_looks (looks_lstat _).attempt)
    intro result hresult
    have hlstat : (lstat host (root.extend front) disk).result = result := Except.ok.inj hresult
    split
    · exact absurd hlstat (h.not_directory false front)
    · exact fails_fail e

theorem Unrooted.whenMissing (h : Unrooted host root disk) {make : Os Unit} (front : List FileName)
    (hmake : Fails make disk) :
    Fails (whenMissing host (root.extend front) make) disk := by
  apply Fails.after (idle_of_looks (looks_stat _).attempt)
  intro result hresult
  have hstat : (stat host (root.extend front) disk).result = result := Except.ok.inj hresult
  split
  · exact absurd hstat (h.not_directory true front)
  · exact fails_fail _
  · exact hmake

theorem Unrooted.mkdirAllFrom (h : Unrooted host root disk) (n : Nat) (front : List FileName) :
    Fails (mkdirAllFrom host n (root.extend front)) disk := by
  induction n generalizing front with
  | zero => exact h.whenMissing front (h.mkdirLast front)
  | succ n ih =>
    apply h.whenMissing
    rcases eq_nil_or_concat front with rfl | ⟨init, name, rfl⟩
    · apply Fails.after
      · rw [Path.extend_nil]
        exact idle_when (idle_mkdirAllFrom n fun hdir => h.absent hdir.of_dir)
      · exact fun _ _ => h.mkdirLast []
    · rw [concat_eq_append]
      apply Fails.after
      · rw [Path.dir_extend]
        exact idle_when (ih init).1
      · exact fun _ _ => h.mkdirLast _

theorem Path.extend_drop (path : Path) (k : Nat) :
    (path.upTo k).extend (path.names.drop k) = path := by
  simp [Path.upTo, Path.extend]

theorem Path.dir_child {path : Path} (hnames : path.names ≠ []) :
    ∃ name, path.dir.extend [name] = path := by
  refine ⟨path.names.getLast hnames, ?_⟩
  simp [Path.dir, hnames, Path.extend, dropLast_append_getLast]

theorem stat_of_missing (hmissing : Missing host (path.upTo k) disk) :
    ∃ e, (stat host path disk).result = .error e := by
  obtain ⟨-, q, hq, hnone⟩ := hmissing
  have hfollow : locateIn host true (path.upTo k) disk = .ok q :=
    FileTree.walkLinks_follow (by simp [hnone]) hq
  unfold stat statAt
  cases hlocate : locateIn host true path disk with
  | error e => exact ⟨_, rfl⟩
  | ok p =>
    rcases eq_or_ne (path.names.drop k) [] with hnil | hne
    · have hpath := path.extend_drop k
      rw [hnil, Path.extend_nil] at hpath
      rw [hpath, hlocate] at hfollow
      obtain rfl := Except.ok.inj hfollow
      simp only [hnone]
      exact ⟨_, rfl⟩
    · rw [← path.extend_drop k] at hlocate
      obtain ⟨d, hd, hdir⟩ := directory_of_located hne hlocate
      rw [hfollow] at hd
      obtain rfl := Except.ok.inj hd
      rw [hnone] at hdir
      cases hdir

theorem mkdirAllFrom_directory (n : Nat) (hlocate : locateIn host true path disk = .ok p)
    (hdir : disk.kindAt p = some .directory) :
    mkdirAllFrom host n path disk = ⟨.ok (), disk, []⟩ := by
  cases n with
  | zero | succ => exact whenMissing_directory hlocate hdir

theorem mem_mkdirLast (hmissing : Missing host path disk) :
    ∃ p, ⟨.created, path, p⟩ ∈ (mkdirLast host path disk).effects := by
  rcases create_cases host path (.directory []) disk with hnew | hold
  · obtain ⟨-, p, -, -, hcreate⟩ := hnew
    refine ⟨p, Os.mem_effects_bind.mpr (Or.inl ?_)⟩
    rw [Os.attempt, mkdir, hcreate]
    exact mem_singleton_self _
  · exact absurd hmissing hold.1

theorem mem_mkdirAllFrom {k n : Nat} (hmissing : Missing host (path.upTo k) disk)
    (hk : k ≤ path.names.length) (hn : path.names.length ≤ n) :
    ∃ p, ⟨.created, path.upTo k, p⟩ ∈ (mkdirAllFrom host n path disk).effects := by
  have hpos : 0 < k := by
    rcases Nat.eq_zero_or_pos k with rfl | hpos
    · exact absurd (by simp [Path.upTo]) hmissing.1
    · exact hpos
  induction n generalizing path with
  | zero => omega
  | succ n ih =>
    obtain ⟨err, hstat⟩ := stat_of_missing hmissing
    have hresult : ((stat host path).attempt disk).result = .ok (.error err) := by
      rw [Os.attempt, hstat]
    rw [mkdirAllFrom, whenMissing, (looks_stat path).attempt.bind_ok hresult]
    by_cases hlast : k < path.names.length
    · -- It is missing above the path's own directory, or is this directory.
      have hparent : hasParentText path = true := by
        simp only [hasParentText, Bool.or_eq_true, decide_eq_true_eq]
        exact Or.inr (by omega)
      rw [← Path.upTo_dir hlast] at hmissing ⊢
      obtain ⟨p, hp⟩ := ih hmissing (by rw [length_dir_names]; omega)
        (by rw [length_dir_names]; omega)
      refine ⟨p, Os.mem_effects_bind.mpr (Or.inl ?_)⟩
      rwa [Os.when, if_pos hparent]
    · -- It is the path itself, whose directory is there.
      have hwhole : path.upTo k = path := by
        rw [show k = path.names.length by omega, Path.upTo_length]
      rw [hwhole] at hmissing ⊢
      obtain ⟨name, hname⟩ := Path.dir_child hmissing.1
      have hmissing' := hmissing
      obtain ⟨-, q, hq, -⟩ := hmissing
      rw [← hname] at hq
      obtain ⟨d, hd, hdir⟩ := directory_of_located (by simp) hq
      have hwhen : Os.when (hasParentText path) (mkdirAllFrom host n path.dir) disk =
          ⟨.ok (), disk, []⟩ := by
        unfold Os.when
        split
        · exact mkdirAllFrom_directory n hd hdir
        · rfl
      obtain ⟨p, hp⟩ := mem_mkdirLast hmissing'
      refine ⟨p, Os.mem_effects_bind.mpr (Or.inr ⟨(), ?_, ?_⟩)⟩
      · rw [hwhen]
      · rw [hwhen]
        exact hp

/-! ## Temporary files -/

variable {dir : Path}

theorem fails_createTempFrom (k tries : Nat)
    (h : ∀ i, k ≤ i → i < k + tries → ¬ Missing host (dir.child (host.tempName i)) disk) :
    Fails (createTempFrom host dir k tries) disk := by
  induction tries generalizing k with
  | zero => exact fails_fail _
  | succ tries ih =>
    have hmissing := h k (Nat.le_refl k) (by omega)
    have hcreate : Idle (create host (dir.child (host.tempName k)) (.file [])).attempt disk :=
      idle_create hmissing
    apply Fails.after hcreate
    intro result hresult
    rcases create_cases host (dir.child (host.tempName k)) (.file []) disk with hnew | hold
    · obtain ⟨hnames, p, hlocate, hkind, -⟩ := hnew
      exact absurd ⟨hnames, p, hlocate, hkind⟩ hmissing
    · obtain ⟨-, e, herror, -⟩ := hold
      rw [Os.attempt, herror] at hresult
      obtain rfl := Except.ok.inj hresult
      split
      · rename_i hok
        cases hok
      · exact ih (k + 1) fun i hi hi' => h i (by omega) (by omega)
      · exact fails_fail _

theorem locateIn_child (hdir : locateIn host true dir disk = .ok p)
    (hkind : disk.kindAt p = some .directory) (name : FileName) :
    locateIn host false (dir.child name) disk = .ok (p ++ [name]) := by
  obtain ⟨m, hm⟩ := @locateIn_behind host disk p [name] dir false (by simp) hdir hkind
  rw [Path.child_eq_extend, hm]
  have hwalk : ∀ again,
      FileTree.walk disk false again p ([name].map .name) = .ok (p ++ [name]) := by
    intro again
    simp only [map_cons, map_nil, FileTree.walk, hkind]
    cases hname : disk.kindAt (p ++ [name]) with
    | none => rfl
    | some kind => cases kind <;> rfl
  cases m with
  | zero => exact hwalk _
  | succ m => exact hwalk _

theorem mem_createTempFrom (hdir : locateIn host true dir disk = .ok p)
    (hkind : disk.kindAt p = some .directory) {k tries i : Nat} (hi : k ≤ i) (hi' : i < k + tries)
    (hmissing : Missing host (dir.child (host.tempName i)) disk) :
    ∃ j q, ⟨.created, dir.child (host.tempName j), q⟩ ∈
      (createTempFrom host dir k tries disk).effects := by
  induction tries generalizing k with
  | zero => omega
  | succ tries ih =>
    rcases create_cases host (dir.child (host.tempName k)) (.file []) disk with hnew | hold
    · obtain ⟨-, q, -, -, hcreate⟩ := hnew
      refine ⟨k, q, Os.mem_effects_bind.mpr (Or.inl ?_)⟩
      rw [Os.attempt, hcreate]
      exact mem_singleton_self _
    · obtain ⟨hnot, e, hcreate, hexists⟩ := hold
      have hne : i ≠ k := by
        rintro rfl
        exact hnot hmissing
      have herror : e = .system .EEXIST :=
        hexists _ (by simp [Path.child]) (locateIn_child hdir hkind _)
      obtain ⟨j, q, hq⟩ := @ih (k + 1) (by omega) (by omega)
      refine ⟨j, q, Os.mem_effects_bind.mpr (Or.inr ⟨.error e, ?_, ?_⟩)⟩
      · rw [Os.attempt, hcreate]
      · rw [Os.attempt, hcreate, herror]
        exact hq

end Absent

/-! ## When an operation stays inside -/

section Contained

variable {host : Host} {sb : Sandbox} {disk : FileTree} {place p : Location}
  {names front : List FileName} {name : Bytes} {path : Path}

/-- `Resolve` refuses a name for writing. -/
def Refused (host : Host) (sb : Sandbox) (name : Bytes) (disk : FileTree) : Prop :=
  ∀ p, (sb.resolve host name true disk).result ≠ .ok p

/-- A file, a link or an empty directory that a path leads to, which `os.Remove` removes. -/
def Removable (host : Host) (path : Path) (disk : FileTree) : Prop :=
  path.names ≠ [] ∧ ∃ p node, locateIn host false path disk = .ok p ∧ disk.get p = some node ∧
    node.entries = []

/-- Writing to a root stays inside of it: it is its own directory, or neither this directory nor
    a temporary file in it can be made. -/
def WritesInside (host : Host) (root : Path) (disk : FileTree) : Prop :=
  root.dir = root ∨ ¬ Absent host root.dir disk ∧
    ∀ k < 10000, ¬ Missing host (root.dir.child (host.tempName k)) disk

/-- The condition under which an operation stays inside of the sandbox: unless its name is
    refused, `Write` and `MkdirAll` do not have to make the root or a directory above it, `Mkdir`
    and `Remove` are not used on a root that can be made or removed, and `Write` is not used on
    the root. -/
def KeepsInside (host : Host) (sb : Sandbox) (disk : FileTree) : Operation → Prop
  | .read _ => True
  | .removeAll _ => True
  | .rename _ _ => True
  | .mkdir name =>
    Refused host sb name disk ∨ components name ≠ [] ∨ ¬ Missing host (clean sb.root) disk
  | .mkdirAll name => Refused host sb name disk ∨ ¬ Absent host (clean sb.root) disk
  | .remove name =>
    Refused host sb name disk ∨ components name ≠ [] ∨ ¬ Removable host (clean sb.root) disk
  | .write name _ =>
    Refused host sb name disk ∨
      if components name ≠ [] then ¬ Absent host (clean sb.root) disk
      else WritesInside host (clean sb.root) disk

variable {e : Effect}

theorem not_inside (htouch : e.touch ≠ .opened)
    (hpath : ∀ names, names ≠ [] → e.path ≠ (clean sb.root).extend names) :
    ¬ sb.Inside host disk e := by
  intro hinside
  obtain ⟨place, names, -, hnames, -, hopened⟩ := hinside
  rcases eq_or_ne names [] with rfl | hne
  · exact htouch (hopened rfl)
  · exact hpath names hne hnames

theorem not_below_of_length {q : Path} (hlength : q.names.length ≤ (clean sb.root).names.length)
    (names : List FileName) (hne : names ≠ []) : q ≠ (clean sb.root).extend names := by
  rintro rfl
  have hpos := length_pos_of_ne_nil hne
  simp only [Path.extend_names, length_append] at hlength
  omega

theorem inside_of_located {follow : Bool} (hpath : e.path = (clean sb.root).extend names)
    (hchecked : Checked host sb disk ((clean sb.root).extend names)) (hne : names ≠ [])
    (hlocate : locateIn host follow ((clean sb.root).extend names) disk = .ok e.location) :
    sb.Inside host disk e := by
  obtain ⟨place, hgrounded, hplace⟩ := checked_located hchecked hne hlocate
  exact ⟨place, names, hgrounded.root, hpath, hplace, fun h => absurd h hne⟩

theorem openPath_inside (hchecked : Checked host sb disk ((clean sb.root).extend names))
    (he : e ∈ (openPath host ((clean sb.root).extend names) disk).effects) :
    sb.Inside host disk e := by
  unfold openPath at he
  cases hlocate : locateIn host true ((clean sb.root).extend names) disk with
  | error err => simp [hlocate, Os.fail] at he
  | ok p =>
    simp only [hlocate] at he
    split at he
    · cases he
    · obtain rfl := mem_singleton.mp he
      rcases eq_or_ne names [] with rfl | hne
      · rw [Path.extend_nil] at hlocate
        exact ⟨p, [], hlocate, rfl, by simp, fun _ => rfl⟩
      · exact inside_of_located rfl hchecked hne hlocate

theorem read_contained (name : Bytes) : sb.Contained host disk (.read name) := by
  intro e he
  rcases Os.mem_effects_bind.mp he with he | he
  · rw [Sandbox.read, (looks_resolve sb name false).mem_effects] at he
    obtain ⟨p, hp, he⟩ := he
    obtain ⟨names, -, rfl, hchecked, -⟩ := resolve_checked hp
    rw [(looks_allowed (looks_safeComponents _ _)).mem_effects] at he
    obtain ⟨_, -, he⟩ := he
    rcases Os.mem_effects_bind.mp he with he | he
    · exact openPath_inside hchecked he
    · -- Reading what was opened touches nothing else.
      obtain ⟨_, -, he⟩ := he
      split at he
      · cases he
      · split at he <;> cases he
  · obtain ⟨_, -, he⟩ := he
    cases he

theorem contained_resolve {op : Operation} {f : Path → Os Unit}
    (hrun : sb.perform host op = (sb.resolve host name true >>= f)) :
    sb.Contained host disk op ↔ ∀ p, (sb.resolve host name true disk).result = .ok p →
      ∀ e ∈ (f p disk).effects, sb.Inside host disk e := by
  simp only [Sandbox.Contained, hrun, (looks_resolve sb name true).mem_effects]
  constructor
  · exact fun h p hp e he => h e ⟨p, hp, he⟩
  · rintro h e ⟨p, hp, he⟩
    exact h p hp e he

theorem contained_last {op : Operation} {f : Path → Os Unit} (touches : Path → Prop)
    (hrun : sb.perform host op = (sb.resolve host name true >>= f))
    (hmem : ∀ path, ∀ e ∈ (f path disk).effects, e.touch ≠ .opened ∧ e.path = path ∧
      locateIn host false path disk = .ok e.location ∧ touches path)
    (htouches : ∀ path, touches path → ∃ e, e ∈ (f path disk).effects) :
    sb.Contained host disk op ↔
      Refused host sb name disk ∨ components name ≠ [] ∨ ¬ touches (clean sb.root) := by
  rw [contained_resolve hrun]
  constructor
  · intro h
    by_contra hkeeps
    simp only [Refused, not_or, not_forall, Classical.not_not] at hkeeps
    obtain ⟨⟨p, hp⟩, hnil, htouch⟩ := hkeeps
    obtain ⟨names, hnames, rfl, -⟩ := resolve_write hp
    obtain rfl : names = [] := by simpa [hnil] using hnames
    rw [Path.extend_nil] at hp
    obtain ⟨e, he⟩ := htouches _ htouch
    obtain ⟨hopened, hpath, -⟩ := hmem _ e he
    refine not_inside hopened (not_below_of_length ?_) (h _ hp e he)
    rw [hpath]
  · intro hkeeps p hp e he
    obtain ⟨names, hnames, rfl, hchecked, -⟩ := resolve_write hp
    obtain ⟨-, hpath, hlocate, htouch⟩ := hmem _ e he
    rcases eq_or_ne names [] with rfl | hnil
    · rw [Path.extend_nil] at htouch
      rcases hkeeps with hrefused | hname | hroot
      · exact absurd hp (hrefused _)
      · exact absurd (by simpa using hnames) hname
      · exact absurd htouch hroot
    · exact inside_of_located hpath hchecked hnil hlocate

theorem mkdir_contained (name : Bytes) :
    sb.Contained host disk (.mkdir name) ↔ KeepsInside host sb disk (.mkdir name) := by
  refine contained_last (f := mkdir host) (Missing host · disk) rfl ?_ ?_
  · intro path e he
    rcases create_cases host path (.directory []) disk with hnew | hold
    · obtain ⟨hnames, p, hlocate, hmissing, hcreate⟩ := hnew
      rw [mkdir, hcreate] at he
      obtain rfl := mem_singleton.mp he
      exact ⟨by simp, rfl, hlocate, hnames, p, hlocate, hmissing⟩
    · obtain ⟨-, err, hcreate, -⟩ := hold
      rw [mkdir, hcreate] at he
      cases he
  · intro path hmissing
    rcases create_cases host path (.directory []) disk with hnew | hold
    · obtain ⟨-, q, -, -, hcreate⟩ := hnew
      rw [mkdir, hcreate]
      exact ⟨_, mem_singleton_self _⟩
    · exact absurd hmissing hold.1

theorem mem_remove (he : e ∈ (remove host path disk).effects) :
    e.touch ≠ .opened ∧ e.path = path ∧ locateIn host false path disk = .ok e.location ∧
      Removable host path disk := by
  unfold remove at he
  split at he
  · cases he
  · rename_i hnames
    cases hlocate : locateIn host false path disk with
    | error err => simp [hlocate, Os.fail] at he
    | ok p =>
      simp only [hlocate] at he
      cases hnode : disk.get p with
      | none => simp [hnode, Os.fail] at he
      | some node =>
        simp only [hnode] at he
        split at he
        · rename_i hempty
          obtain rfl := mem_singleton.mp he
          exact ⟨by simp, rfl, rfl, hnames, p, node, hlocate, hnode, hempty⟩
        · cases he

theorem remove_contained (name : Bytes) :
    sb.Contained host disk (.remove name) ↔ KeepsInside host sb disk (.remove name) := by
  refine contained_last (f := remove host) (Removable host · disk) rfl
    (fun _ _ => mem_remove) ?_
  rintro path ⟨hnames, q, node, hq, hnode, hempty⟩
  simp [remove, hnames, hq, hnode, hempty]

theorem not_below_upTo {root path : Path} {k : Nat} (h : path.names.length ≤ root.names.length)
    (names : List FileName) (hne : names ≠ []) : path.upTo k ≠ root.extend names := by
  intro heq
  have hlength : (path.upTo k).names.length = root.names.length + names.length := by
    rw [heq, Path.extend_names, length_append]
  have hpos := length_pos_of_ne_nil hne
  simp only [Path.upTo, length_take] at hlength
  omega

theorem mkdirAll_contained (name : Bytes) :
    sb.Contained host disk (.mkdirAll name) ↔ KeepsInside host sb disk (.mkdirAll name) := by
  rw [contained_resolve (f := mkdirAll host) rfl]
  constructor
  · intro h
    by_contra hkeeps
    simp only [KeepsInside, Refused, not_or, not_forall, Classical.not_not] at hkeeps
    obtain ⟨⟨p, hp⟩, k, hk, hmissing⟩ := hkeeps
    obtain ⟨names, -, rfl, -⟩ := resolve_write hp
    rw [← Path.upTo_extend _ names hk] at hmissing
    obtain ⟨q, hq⟩ := mem_mkdirAllFrom hmissing (by simp; omega) (Nat.le_refl _)
    rw [Path.upTo_extend _ names hk] at hq
    exact not_inside (by simp) (not_below_upTo (Nat.le_refl _)) (h _ hp _ hq)
  · intro hkeeps p hp e he
    obtain ⟨names, -, rfl, hchecked, -⟩ := resolve_write hp
    rcases hkeeps with hrefused | habsent
    · exact absurd hp (hrefused _)
    · rcases unrooted_or_directory habsent with hunrooted | ⟨place, hroot, hdir⟩
      · rw [mkdirAll, (hunrooted.mkdirAllFrom _ names).1.1] at he
        cases he
      · have hinv := grounded_of_checked hchecked hroot hdir
        exact ((mkdirAllFrom_keeps _ (prefix_refl names) disk hinv).1 e he).inside hroot

/-! ### Writing -/

variable {data : Bytes}

theorem mem_writeTo (hchecked : Checked host sb disk path.dir)
    (he : e ∈ (mkdirAll host path.dir disk).effects) :
    e ∈ (sb.writeTo host path data disk).effects := by
  rw [Sandbox.writeTo, (looks_allowed (looks_safeComponents _ _)).mem_effects]
  refine ⟨(), (allowed_eq_ok (looks_safeComponents _ _)).mpr hchecked, ?_⟩
  exact Os.mem_effects_bind.mpr (Or.inl he)

theorem mem_writeTo_temp (hchecked : Checked host sb disk path.dir)
    (hlocate : locateIn host true path.dir disk = .ok p) (hdir : disk.kindAt p = some .directory)
    (he : e ∈ (createTemp host path.dir disk).effects) :
    e ∈ (sb.writeTo host path data disk).effects := by
  have hsafe : Looks (allowed (safeComponents host (clean sb.root) path.dir)) :=
    looks_allowed (looks_safeComponents _ _)
  have hok : (allowed (safeComponents host (clean sb.root) path.dir) disk).result = .ok () :=
    (allowed_eq_ok (looks_safeComponents _ _)).mpr hchecked
  have hmkdir : mkdirAll host path.dir disk = ⟨.ok (), disk, []⟩ :=
    mkdirAllFrom_directory _ hlocate hdir
  rw [Sandbox.writeTo, hsafe.mem_effects]
  refine ⟨(), hok, Os.mem_effects_bind.mpr (Or.inr ⟨(), ?_, ?_⟩)⟩
  · rw [hmkdir]
  · rw [hmkdir, hsafe.mem_effects]
    exact ⟨(), hok, Os.mem_effects_bind.mpr (Or.inl he)⟩

theorem fails_writeTo (h : Fails (mkdirAll host path.dir) disk) :
    Fails (sb.writeTo host path data) disk := by
  apply Fails.after (idle_of_looks (looks_allowed (looks_safeComponents _ _)))
  intro _ _
  exact h.bind

theorem fails_writeTo_temp (habsent : ¬ Absent host path.dir disk)
    (htemp : ∀ k < 10000, ¬ Missing host (path.dir.child (host.tempName k)) disk) :
    Fails (sb.writeTo host path data) disk := by
  apply Fails.after (idle_of_looks (looks_allowed (looks_safeComponents _ _)))
  intro _ _
  apply Fails.after (idle_mkdirAllFrom _ habsent)
  intro _ _
  apply Fails.after (idle_of_looks (looks_allowed (looks_safeComponents _ _)))
  intro _ _
  exact (fails_createTempFrom 0 10000 fun i _ hi => htemp i (by omega)).bind

theorem Path.names_of_dir_eq {path : Path} (h : path.dir = path) : path.names = [] := by
  have hlength := length_dir_names path
  rw [h] at hlength
  exact length_eq_zero_iff.mp (by omega)

/-- A name in the directory of the root is not below the root, unless the root is its own
    directory. -/
theorem not_below_sibling {root : Path} (hdir : root.dir ≠ root) (temp : FileName)
    (names : List FileName) (hne : names ≠ []) : root.dir.child temp ≠ root.extend names := by
  intro heq
  have hpos := length_pos_of_ne_nil hne
  have hlength : root.dir.names.length + 1 = root.names.length + names.length := by
    rw [← length_append, ← Path.extend_names, ← heq]
    simp [Path.child]
  rw [length_dir_names] at hlength
  have hnil : root.names = [] := by
    apply length_eq_zero_iff.mp
    omega
  have hups : root.dir.ups = root.ups := by
    rw [← Path.extend_ups root names, ← heq]
    rfl
  apply hdir
  obtain ⟨absolute, ups, names', rooted⟩ := root
  obtain rfl : names' = [] := hnil
  simpa [Path.dir] using hups

theorem write_contained (name data : Bytes) :
    sb.Contained host disk (.write name data) ↔ KeepsInside host sb disk (.write name data) := by
  rw [contained_resolve (f := (sb.writeTo host · data)) rfl]
  constructor
  · intro h
    by_contra hkeeps
    simp only [KeepsInside, Refused, not_or, not_forall, Classical.not_not] at hkeeps
    obtain ⟨⟨p, hp⟩, hwrite⟩ := hkeeps
    obtain ⟨names, hnames, rfl, -, hparent, -⟩ := resolve_write hp
    have hout := h _ hp
    rcases eq_nil_or_concat names with rfl | ⟨front, last, rfl⟩
    · rw [Path.extend_nil] at hout hparent
      simp only [hnames, map_nil, ne_eq, not_true_eq_false, if_false, WritesInside, not_or,
        not_and_or, Classical.not_not, not_forall] at hwrite
      obtain ⟨hdir, habsent | ⟨k, hk, hmissing⟩⟩ := hwrite
      · -- The directory of the root is made, or one above it.
        obtain ⟨k, hk, hmissing⟩ := habsent
        obtain ⟨q, hq⟩ := mem_mkdirAllFrom hmissing hk (Nat.le_refl _)
        refine not_inside (by simp) (not_below_upTo ?_) (hout _ (mem_writeTo hparent hq))
        rw [length_dir_names]
        omega
      · -- A temporary file is created beside the root.
        obtain ⟨-, q, hq, -⟩ := id hmissing
        rw [Path.child_eq_extend] at hq
        obtain ⟨d, hd, hkind⟩ := directory_of_located (by simp) hq
        obtain ⟨j, q, hq⟩ := mem_createTempFrom hd hkind (Nat.zero_le k)
          (show k < 0 + 10000 by omega) hmissing
        exact not_inside (by simp) (not_below_sibling hdir _)
          (hout _ (mem_writeTo_temp hparent hd hkind hq))
    · rw [concat_eq_append] at hnames hout hparent
      rw [if_pos (by simp [hnames]), Classical.not_not] at hwrite
      obtain ⟨k, hk, hmissing⟩ := hwrite
      rw [Path.dir_extend] at hparent
      rw [← Path.upTo_extend _ front hk] at hmissing
      obtain ⟨q, hq⟩ := mem_mkdirAllFrom hmissing (by simp; omega) (Nat.le_refl _)
      rw [Path.upTo_extend _ front hk] at hq
      refine not_inside (by simp) (not_below_upTo (Nat.le_refl _))
        (hout ⟨.created, (clean sb.root).upTo k, q⟩ (mem_writeTo ?_ ?_))
      all_goals rwa [Path.dir_extend]
  · intro hkeeps p hp e he
    obtain ⟨names, hnames, rfl, hchecked, -⟩ := resolve_write hp
    rcases hkeeps with hrefused | hwrite
    · exact absurd hp (hrefused _)
    -- Where the directory of the path is the root or below it, the root decides.
    have hbelow : ∀ front, front <+: names →
        ((clean sb.root).extend names).dir = (clean sb.root).extend front →
        (names = [] → (clean sb.root).names = []) → ¬ Absent host (clean sb.root) disk →
        sb.Inside host disk e := by
      intro front hfront hdir hroot habsent
      rcases unrooted_or_directory habsent with hunrooted | ⟨place, hlocate, hkind⟩
      · have hfails : Fails (mkdirAll host ((clean sb.root).extend names).dir) disk := by
          rw [hdir]
          exact hunrooted.mkdirAllFrom _ front
        rw [(fails_writeTo hfails).1.1] at he
        cases he
      · have hinv := grounded_of_checked hchecked hlocate hkind
        exact (writeTo_below hfront hdir hroot disk hinv e he).inside hlocate
    rcases eq_nil_or_concat names with rfl | ⟨front, last, rfl⟩
    · rw [if_neg (by simp [hnames])] at hwrite
      rcases hwrite with hdir | ⟨habsent, htemp⟩
      · have hnil := Path.names_of_dir_eq hdir
        refine hbelow [] (prefix_refl _) (by simpa using hdir) (fun _ => hnil) ?_
        rintro ⟨k, hk, hmissing⟩
        exact hmissing.1 (by simp [Path.upTo, hnil])
      · rw [Path.extend_nil, (fails_writeTo_temp habsent htemp).1.1] at he
        cases he
    · rw [concat_eq_append] at hnames hbelow
      rw [if_pos (by simp [hnames])] at hwrite
      exact hbelow front (prefix_append _ _) (Path.dir_extend _ _ _) (by simp) hwrite

/-! ### Removing trees -/

theorem remove_error {e : FileError} (h : (remove host path disk).result = .error e) :
    (remove host path disk).disk = disk := by
  unfold remove at h ⊢
  split at h <;> rename_i hnames
  · rw [if_pos hnames]
    rfl
  · rw [if_neg hnames]
    cases hlocate : locateIn host false path disk with
    | error err => rfl
    | ok p =>
      simp only [hlocate] at h ⊢
      cases hnode : disk.get p with
      | none => rfl
      | some node =>
        simp only [hnode] at h ⊢
        split_ifs with hempty
        · rw [if_pos hempty] at h
          cases h
        · rfl

theorem openPath_disk : (openPath host path disk).disk = disk := by
  unfold openPath
  split
  · rfl
  · split <;> rfl

theorem mem_removeTree (he : e ∈ (removeTree host path disk).effects) :
    e.path = path ∧ locateIn host false path disk = .ok e.location := by
  unfold removeTree at he
  cases hlocate : locateIn host false path disk with
  | error err => simp [hlocate, Os.fail] at he
  | ok p =>
    simp only [hlocate] at he
    split at he
    · cases he
    · obtain rfl := mem_singleton.mp he
      exact ⟨rfl, rfl⟩

theorem removeAll_contained (name : Bytes) : sb.Contained host disk (.removeAll name) := by
  intro e he
  change e ∈ (sb.removeAll host name disk).effects at he
  rw [Sandbox.removeAll, (looks_resolve sb name true).mem_effects] at he
  obtain ⟨p, hp, he⟩ := he
  rw [(looks_demand _ _).mem_effects] at he
  obtain ⟨_, hdemand, he⟩ := he
  obtain ⟨names, -, rfl, hchecked, hparent, -⟩ := resolve_write hp
  -- The path is not the root's, so that there are names below the root.
  have hne : names ≠ [] := by
    rintro rfl
    rw [demand_eq_ok, Path.extend_nil] at hdemand
    simp at hdemand
  rw [removeAll, (looks_demand _ _).mem_effects] at he
  obtain ⟨-, -, he⟩ := he
  rcases Os.mem_effects_bind.mp he with he | ⟨result, hresult, he⟩
  · obtain ⟨-, hpath, hlocate, -⟩ := mem_remove he
    exact inside_of_located hpath hchecked hne hlocate
  · have hremove := Except.ok.inj hresult
    split at he
    · cases he
    · cases he
    · rw [Os.attempt, remove_error hremove] at he
      obtain ⟨front, last, rfl⟩ := eq_nil_or_concat names |>.resolve_left hne
      rw [concat_eq_append, Path.dir_extend] at hparent
      rcases Os.mem_effects_bind.mp he with he | ⟨opened, -, he⟩
      · rw [concat_eq_append, Path.dir_extend] at he
        exact openPath_inside hparent he
      · rw [Os.attempt, openPath_disk] at he
        split at he
        · obtain ⟨hpath, hlocate⟩ := mem_removeTree he
          exact inside_of_located hpath hchecked hne hlocate
        all_goals cases he

/-! ### Renaming -/

theorem root_located {follow : Bool}
    (hchecked : Checked host sb disk ((clean sb.root).extend names))
    (hlink : (notLink host (clean sb.root) disk).result = .ok true) (hne : names ≠ [])
    (hlocate : locateIn host follow ((clean sb.root).extend names) disk = .ok p) :
    ∃ place, locateIn host false (clean sb.root) disk = .ok place ∧
      disk.kindAt place = some .directory ∧ p = place ++ names := by
  obtain ⟨place, hgrounded, hplace⟩ := checked_located hchecked hne hlocate
  exact ⟨place, locate_eq hlink hgrounded.root, hgrounded.directory, hplace⟩

theorem rename_contained (oldName newName : Bytes) :
    sb.Contained host disk (.rename oldName newName) := by
  intro e he
  change e ∈ (sb.rename host oldName newName disk).effects at he
  rw [Sandbox.rename, (looks_resolve sb oldName true).mem_effects] at he
  obtain ⟨old, hold, he⟩ := he
  rw [(looks_resolve sb newName true).mem_effects] at he
  obtain ⟨new, hnew, he⟩ := he
  obtain ⟨oldNames, -, rfl, holdChecked, -, holdLink⟩ := resolve_write hold
  obtain ⟨newNames, -, rfl, hnewChecked, -, hnewLink⟩ := resolve_write hnew
  obtain ⟨he, hdirectory⟩ := mem_rename he
  rcases renameCall_cases host ((clean sb.root).extend oldNames)
    ((clean sb.root).extend newNames) disk with hmoved | hnothing
  · obtain ⟨-, -, source, target, hsource, htarget, -, hne, hinitial, heffects, -⟩ := hmoved
    have holdNames : oldNames ≠ [] := by
      rintro rfl
      rw [Path.extend_nil] at hsource holdLink
      apply hinitial
      rcases eq_or_ne newNames [] with rfl | hnewNames
      · rw [Path.extend_nil, hsource] at htarget
        exact absurd (Except.ok.inj htarget) hne
      · -- The root would be moved below itself.
        obtain ⟨place, hplace, -, rfl⟩ := root_located hnewChecked holdLink hnewNames htarget
        rw [hsource] at hplace
        obtain rfl := Except.ok.inj hplace
        exact prefix_append _ _
    have hnewNames : newNames ≠ [] := by
      rintro rfl
      rw [Path.extend_nil] at htarget hnewLink hdirectory
      -- The root is a directory, which is not replaced.
      obtain ⟨place, hplace, hkind, -⟩ := root_located holdChecked hnewLink holdNames hsource
      have hlstat : (lstat host (clean sb.root) disk).result = .ok .directory := by
        simp only [lstat, statAt, hplace, hkind]
      have hsame := hdirectory hlstat
      rw [hsource, htarget] at hsame
      exact hne (Except.ok.inj hsame)
    rw [heffects] at he
    rcases mem_cons.mp he with rfl | he
    · exact inside_of_located rfl holdChecked holdNames hsource
    · obtain rfl := mem_singleton.mp he
      exact inside_of_located rfl hnewChecked hnewNames htarget
  · rw [hnothing.1] at he
    cases he

/-- An operation stays inside of the sandbox exactly when it does not have to make the root or
    what is above it, and does not make, write or remove the root itself. -/
theorem contained_iff (host : Host) (sb : Sandbox) (disk : FileTree) (op : Operation) :
    sb.Contained host disk op ↔ KeepsInside host sb disk op := by
  cases op with
  | read name => exact ⟨fun _ => trivial, fun _ => read_contained name⟩
  | write name data => exact write_contained name data
  | mkdir name => exact mkdir_contained name
  | mkdirAll name => exact mkdirAll_contained name
  | remove name => exact remove_contained name
  | removeAll name => exact ⟨fun _ => trivial, fun _ => removeAll_contained name⟩
  | rename oldName newName => exact ⟨fun _ => trivial, fun _ => rename_contained oldName newName⟩

end Contained

/-! ## An operation on the root -/

/-- The name of a temporary file, as far as it matters. -/
def temporaryName (k : Nat) : FileName where
  text := ascii ".kryndel-write-" ++ List.replicate k 48
  ordinary := by
    refine ⟨by simp [ascii], by simp [ascii], by simp [ascii], ?_⟩
    rw [mem_append, not_or]
    refine ⟨by decide, ?_⟩
    rw [mem_replicate, not_and]
    intro _
    decide

def smallHost : Host where
  cwd := []
  tempName := temporaryName
  full := false

/-- A sandbox in the directory `/srv/box`. -/
def boxSandbox : Sandbox where
  root := ascii "/srv/box"
  named := by decide

def boxDisk : FileTree :=
  .directory [(⟨ascii "srv", by decide⟩, .directory [(⟨ascii "box", by decide⟩, .directory [])])]

/-- `Remove(".")` removes the root, and `Write("")` creates a temporary file beside it. -/
theorem root_not_protected :
    ¬ boxSandbox.Contained smallHost boxDisk (.remove (ascii ".")) ∧
      ¬ boxSandbox.Contained smallHost boxDisk (.write [] []) := by
  constructor
  · have heffect : ⟨.removed, clean boxSandbox.root, [⟨ascii "srv", by decide⟩,
        ⟨ascii "box", by decide⟩]⟩ ∈
        (boxSandbox.perform smallHost (.remove (ascii ".")) boxDisk).effects := by
      decide
    intro h
    exact not_inside (by simp) (not_below_of_length (Nat.le_refl _)) (h _ heffect)
  · have heffect : ⟨.created, (clean boxSandbox.root).dir.child (temporaryName 0),
        [⟨ascii "srv", by decide⟩, temporaryName 0]⟩ ∈
        (boxSandbox.perform smallHost (.write [] []) boxDisk).effects := by
      decide
    intro h
    exact not_inside (by simp) (not_below_sibling (by decide) _) (h _ heffect)

end Kryndel
