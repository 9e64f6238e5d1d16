import Kryndel.Files.Fresh
import Kryndel.Package.ArchiveEntries

/-!
# Archives that are unpacked

An entry is unpacked by making the directories along its name and a file. That fails where a
file stands in the way of a directory, or a directory in the way of the file, so whether all
of an archive can be unpacked depends on each two of its entries.
-/

namespace Kryndel

open List

/-! ## Unpacking -/

/-- A file that is unpacked: where it is put, and its content. -/
abbrev UnpackedFile := List FileName × Bytes

/-- Two files that do not stand in each other's way. -/
def ClearOf (file other : UnpackedFile) : Prop :=
  ¬ file.1 <+: other.1 ∧ ¬ other.1 <+: file.1

/-- The files stand below a directory, with directories along their names, and nothing else
    does; outside of it nothing has changed. -/
structure Laid (host : Host) (dest : Path) (place : Location) (start : FileTree)
    (files : List UnpackedFile) (disk : FileTree) : Prop where
  clear : Clear host dest place disk
  outside : ∀ other, ¬ place <+: other → disk.shapeAt other = start.shapeAt other
  file : ∀ names content,
    disk.shapeAt (place ++ names) = some (.file content) ↔ (names, content) ∈ files
  directory : ∀ names, disk.shapeAt (place ++ names) = some .directory ↔
    names = [] ∨ ∃ file ∈ files, names <+: file.1 ∧ names ≠ file.1

/-- A directory in which nothing stands. -/
structure EmptyDirectory (host : Host) (dest : Path) (place : Location) (disk : FileTree) :
    Prop where
  located : locateIn host true dest disk = .ok place
  directory : disk.kindAt place = some .directory
  nothing : ∀ names, names ≠ [] → disk.kindAt (place ++ names) = none

section Unpacking

variable {host : Host} {dest : Path} {place : Location} {start disk : FileTree}
  {files : List UnpackedFile} {front : List FileName} {name : FileName}

theorem EmptyDirectory.laid (h : EmptyDirectory host dest place disk) :
    Laid host dest place disk [] disk := by
  have hshape : ∀ names, names ≠ [] → disk.shapeAt (place ++ names) = none :=
    fun names hnames => FileTree.kindAt_eq_none.mp (h.nothing names hnames)
  have hroot := FileTree.kindAt_eq_directory.mp h.directory
  refine ⟨⟨h.located, h.directory, ?_⟩, fun _ _ => rfl, ?_, ?_⟩
  · intro names absolute target hlink
    by_cases hnames : names = []
    · rw [hnames, append_nil, h.directory] at hlink
      cases hlink
    · rw [h.nothing names hnames] at hlink
      cases hlink
  · intro names content
    by_cases hnames : names = []
    · simp [hnames, hroot]
    · simp [hshape names hnames]
  · intro names
    by_cases hnames : names = []
    · simp [hnames, hroot]
    · simp [hshape names hnames, hnames]

/-- What is in the way of a file that is to be made: a file where a directory is needed, or
    anything at all where the file is to stand. -/
theorem Laid.conflict_iff (h : Laid host dest place start files disk) :
    ((∃ names, names <+: front ∧ disk.kindAt (place ++ names) = some .file) ∨
      disk.kindAt (place ++ (front ++ [name])) ≠ none) ↔
        ∃ file ∈ files, file.1 <+: front ++ [name] ∨ front ++ [name] <+: file.1 := by
  have hfile : ∀ names, disk.kindAt (place ++ names) = some .file ↔
      ∃ file ∈ files, file.1 = names := by
    intro names
    rw [FileTree.kindAt_eq_shapeAt]
    constructor
    · intro hkind
      cases hshape : disk.shapeAt (place ++ names) with
      | none => simp [hshape] at hkind
      | some shape =>
        cases shape with
        | file content => exact ⟨_, (h.file names content).mp hshape, rfl⟩
        | symlink | directory => simp [hshape, Shape.kind] at hkind
    · rintro ⟨⟨names, content⟩, hmem, rfl⟩
      rw [(h.file names content).mpr hmem]
      rfl
  constructor
  · rintro (⟨names, hnames, hkind⟩ | hkind)
    · obtain ⟨file, hmem, rfl⟩ := (hfile names).mp hkind
      exact ⟨file, hmem, .inl (hnames.trans (prefix_append _ _))⟩
    · cases hstands : disk.kindAt (place ++ (front ++ [name])) with
      | none => exact absurd hstands hkind
      | some kind =>
        cases kind with
        | symlink absolute target => exact absurd hstands (h.clear.links _ absolute target)
        | file =>
          obtain ⟨file, hmem, hname⟩ := (hfile _).mp hstands
          exact ⟨file, hmem, .inl (by rw [hname])⟩
        | directory =>
          rw [FileTree.kindAt_eq_directory, h.directory] at hstands
          rcases hstands with hnil | ⟨file, hmem, hbegins, -⟩
          · simp at hnil
          · exact ⟨file, hmem, .inr hbegins⟩
  · rintro ⟨file, hmem, hbegins | hbegins⟩
    · by_cases hlast : file.1 = front ++ [name]
      · exact .inr (by rw [(hfile _).mpr ⟨file, hmem, hlast⟩]; simp)
      · left
        refine ⟨file.1, ?_, (hfile _).mpr ⟨file, hmem, rfl⟩⟩
        exact (prefix_concat_iff.mp (by simpa using hbegins)).resolve_left
          (by simpa using hlast)
    · right
      by_cases hlast : file.1 = front ++ [name]
      · rw [(hfile _).mpr ⟨file, hmem, hlast⟩]
        simp
      · rw [FileTree.kindAt_eq_directory.mpr ((h.directory _).mpr
          (.inr ⟨file, hmem, hbegins, fun heq => hlast heq.symm⟩))]
        simp

theorem not_prefix_front : ¬ front ++ [name] <+: front := by
  intro hbegins
  have hlength := hbegins.length_le
  rw [length_append, length_singleton] at hlength
  omega

theorem Laid.unpackEntry_fails (h : Laid host dest place start files disk) (e : TarEntry)
    (hconflict : ∃ file ∈ files, file.1 <+: front ++ [name] ∨ front ++ [name] <+: file.1) :
    ∃ error, (extractEntry host (dest.extend (front ++ [name])) e disk).result = .error error := by
  rw [extractEntry, Path.dir_extend]
  by_cases hfree : ∃ names, names <+: front ∧ disk.kindAt (place ++ names) = some .file
  · obtain ⟨names, hnames, hkind⟩ := hfree
    obtain ⟨error, herror⟩ := h.clear.mkdirAll_fails hnames hkind
    exact ⟨error, by rw [Os.bind_error herror]⟩
  · -- the directories are made, but something stands where the file is to stand
    have hstands := (h.conflict_iff.mpr hconflict).resolve_left hfree
    have hpassable : ∀ names, names <+: front → disk.kindAt (place ++ names) ≠ some .file :=
      fun names hnames hkind => hfree ⟨names, hnames, hkind⟩
    obtain ⟨hmkdir, hmade⟩ := h.clear.mkdirAll_makes hpassable
    have hstands' : (mkdirAll host (dest.extend front) disk).disk.kindAt
        (place ++ (front ++ [name])) ≠ none := by
      rwa [Ne, FileTree.kindAt_eq_none, hmade.shapes, if_neg not_prefix_front, ← FileTree.kindAt_eq_none]
    obtain ⟨error, herror⟩ := hmade.clear.create_fails (.file []) hstands'
    exact ⟨error, by rw [Os.bind_ok hmkdir, Os.bind_error herror]⟩

/-- One file more has been made in a directory. -/
theorem Laid.cons (h : Laid host dest place start files disk) {disk' : FileTree} {content : Bytes}
    (hfree : ∀ file ∈ files, ClearOf file (front ++ [name], content))
    (hclear : Clear host dest place disk')
    (houtside : ∀ other, ¬ place <+: other → disk'.shapeAt other = disk.shapeAt other)
    (hshapes : ∀ names, disk'.shapeAt (place ++ names) =
      if names = front ++ [name] then some (.file content)
      else if names <+: front then some .directory else disk.shapeAt (place ++ names)) :
    Laid host dest place start ((front ++ [name], content) :: files) disk' := by
  refine ⟨hclear, fun other hother => (houtside other hother).trans (h.outside other hother),
    ?_, ?_⟩
  · intro names content'
    rw [hshapes, mem_cons]
    by_cases hlast : names = front ++ [name]
    · rw [if_pos hlast]
      constructor
      · intro heq
        left
        rw [hlast, Shape.file.inj (Option.some.inj heq)]
      · rintro (heq | hmem)
        · rw [(Prod.mk.inj heq).2]
        · exact absurd (by rw [hlast]) (hfree _ hmem).1
    · rw [if_neg hlast]
      have hnew : (names, content') ≠ (front ++ [name], content) :=
        fun heq => hlast (Prod.mk.inj heq).1
      by_cases hbegins : names <+: front
      · rw [if_pos hbegins]
        constructor
        · intro heq
          cases heq
        · rintro (heq | hmem)
          · exact absurd heq hnew
          · exact absurd (hbegins.trans (prefix_append _ _)) (hfree _ hmem).1
      · rw [if_neg hbegins, h.file]
        exact ⟨.inr, fun hor => hor.resolve_left hnew⟩
  · intro names
    rw [hshapes]
    simp only [mem_cons, exists_eq_or_imp]
    by_cases hlast : names = front ++ [name]
    · rw [if_pos hlast]
      constructor
      · intro heq
        cases heq
      · rintro (hnil | ⟨-, hne⟩ | ⟨file, hmem, hbegins, -⟩)
        · simp [hnil] at hlast
        · exact absurd hlast hne
        · rw [hlast] at hbegins
          exact absurd hbegins (hfree _ hmem).2
    · rw [if_neg hlast]
      by_cases hbegins : names <+: front
      · rw [if_pos hbegins]
        simp only [true_iff]
        exact .inr (.inl ⟨hbegins.trans (prefix_append _ _), hlast⟩)
      · rw [if_neg hbegins, h.directory]
        constructor
        · exact Or.imp_right .inr
        · rintro (hnil | ⟨hinitial, -⟩ | hbelow)
          · exact .inl hnil
          · rcases prefix_concat_iff.mp (by simpa using hinitial) with h | h
            · exact absurd (by simpa using h) hlast
            · exact absurd h hbegins
          · exact .inr hbelow

theorem Laid.unpackEntry (h : Laid host dest place start files disk) (hfull : host.full = false)
    (e : TarEntry)
    (hfree : ∀ file ∈ files, ClearOf file (front ++ [name], e.content.take e.size.toNat)) :
    (extractEntry host (dest.extend (front ++ [name])) e disk).result = .ok () ∧
      Laid host dest place start ((front ++ [name], e.content.take e.size.toNat) :: files)
        (extractEntry host (dest.extend (front ++ [name])) e disk).disk := by
  have hno : ¬ ∃ file ∈ files, file.1 <+: front ++ [name] ∨ front ++ [name] <+: file.1 := by
    rintro ⟨file, hmem, hbegins⟩
    exact hbegins.elim (hfree file hmem).1 (hfree file hmem).2
  rw [← h.conflict_iff, not_or, not_not] at hno
  obtain ⟨hnofile, habsent⟩ := hno
  -- the directories are made
  have hpassable : ∀ names, names <+: front → disk.kindAt (place ++ names) ≠ some .file :=
    fun names hnames hkind => hnofile ⟨names, hnames, hkind⟩
  obtain ⟨hmkdir, hmade⟩ := h.clear.mkdirAll_makes hpassable
  generalize hmkdisk : (mkdirAll host (dest.extend front) disk).disk = made at hmade
  have habsent' : made.kindAt (place ++ (front ++ [name])) = none := by
    rw [FileTree.kindAt_eq_none, hmade.shapes, if_neg not_prefix_front, ← FileTree.kindAt_eq_none, habsent]
  -- the file is created
  have hcreate := hmade.clear.create_eq (.file []) hmade.directory habsent'
  have hcreated : Clear host dest place
      (made.put (place ++ (front ++ [name])) (some (.file []))) :=
    hmade.clear.put rfl (by simp [FileTree.kind]) hmade.directory (.inl habsent')
  have hshapes := @shapeAt_put_below place made front name (.file []) rfl hmade.directory
    (by rw [habsent']; simp)
  have houtside : ∀ other, ¬ place <+: other →
      (made.put (place ++ (front ++ [name])) (some (.file []))).shapeAt other =
        made.shapeAt other :=
    fun other hother => shapeAt_put_outside _ hmade.directory hother
  generalize made.put (place ++ (front ++ [name])) (some (.file [])) = created
    at hcreate hcreated hshapes houtside
  have hfile : created.kindAt (place ++ (front ++ [name])) = some .file := by
    rw [FileTree.kindAt_eq_shapeAt, hshapes, if_pos rfl]
    rfl
  have hdir : created.kindAt (place ++ front) = some .directory := by
    apply FileTree.kindAt_above (cons_ne_nil name [])
    rw [append_assoc, hfile]
    simp
  -- the file is written
  have hwrite := hcreated.writeFile_eq hfull hfile (e.content.take e.size.toNat)
  have hresult : (create host (dest.extend (front ++ [name])) (.file []) made).result = .ok () := by
    rw [hcreate]
  rw [extractEntry, Path.dir_extend, Os.bind_ok hmkdir, hmkdisk, Os.bind_ok hresult,
    hcreate, hwrite]
  refine ⟨rfl, h.cons hfree (hcreated.put rfl (by simp [FileTree.kind]) hdir
    (.inr ⟨hfile, rfl⟩)) ?_ ?_⟩
  · intro other hother
    exact (shapeAt_put_outside _ hdir hother).trans
      ((houtside other hother).trans (hmade.outside other hother))
  · intro names
    rw [shapeAt_put_below rfl hdir (by rw [hfile]; simp), hshapes, hmade.shapes]
    split <;> rfl

/-! ## Unpacking all entries -/

/-- The files that entries become. -/
def unpackedFiles (entries : List TarEntry) (paths : List Path) : List UnpackedFile :=
  List.zipWith (fun e path => (path.names, e.content)) entries paths

theorem EntryFits.take_size {e : TarEntry} {path : Path} (h : EntryFits e path) :
    e.content.take e.size.toNat = e.content := by
  have hwhole := h.whole
  exact take_of_length_le (by omega)

instance : Std.Symm ClearOf := ⟨fun _ _ h => ⟨h.2, h.1⟩⟩

theorem within_extend (host : Host) (path : Path) (names : List FileName) :
    within host path (path.extend names) = true := by
  have habs : (path.extend names).abs host.workingDirectory =
      (path.abs host.workingDirectory).extend names := by
    unfold Path.abs
    rw [Path.extend_absolute]
    split
    · rfl
    · rw [Path.parts_extend, foldl_append, Path.foldl_push_names]
  rw [within, habs, rel_extend]
  rfl

/-- An error ends the work; after a success it goes on. -/
def goOn {ε ε' α : Type} (wrap : ε → ε') (next : Os (Except ε' α)) :
    Except ε Unit → Os (Except ε' α)
  | .error error => pure (.error (wrap error))
  | .ok () => next

/-- The entries of an archive that is accepted are unpacked if and only if no two of them, and
    none of them and a file that is there already, stand in each other's way. -/
theorem Laid.unpackEntries {base : Bytes} (hbase : base ≠ []) (hfull : host.full = false)
    {entries : List TarEntry} {paths : List Path} (hfits : List.Forall₂ EntryFits entries paths)
    {count : Nat} {seen : List Path} (hnodup : paths.Nodup) (hseen : ∀ path ∈ paths, path ∉ seen)
    (hcount : entries ≠ [] → count + entries.length ≤ maxPackageArchiveEntries)
    (h : Laid host (clean base) place start files disk) :
    ((extractEntries host base count seen entries disk).result = .ok (.ok ()) ↔
      (unpackedFiles entries paths).Pairwise ClearOf ∧
        ∀ file ∈ files, ∀ other ∈ unpackedFiles entries paths, ClearOf file other) ∧
    ((extractEntries host base count seen entries disk).result = .ok (.ok ()) →
      Laid host (clean base) place start ((unpackedFiles entries paths).reverse ++ files)
        (extractEntries host base count seen entries disk).disk) := by
  induction hfits generalizing count seen files disk with
  | nil =>
    refine ⟨?_, fun _ => h⟩
    simp [extractEntries, unpackedFiles]
    rfl
  | @cons e path entries paths hfit hfits ih =>
    rw [nodup_cons] at hnodup
    have hcount := hcount (by simp)
    rw [length_cons] at hcount
    obtain ⟨names, hnames, -, rfl⟩ := safeArchivePath_eq_ok hfit.safe
    obtain ⟨front, name, rfl⟩ := (eq_nil_or_concat names).resolve_left hnames
    rw [concat_eq_append] at *
    have hcheck : checkEntry (count + 1) seen e = .ok (.inner (front ++ [name])) :=
      hfit.check (by omega) (hseen _ mem_cons_self)
    have hfiles : unpackedFiles (e :: entries) (.inner (front ++ [name]) :: paths) =
        (front ++ [name], e.content) :: unpackedFiles entries paths := rfl
    have hloop : extractEntries host base count seen (e :: entries) =
        ((extractEntry host ((clean base).extend (front ++ [name])) e).attempt >>=
          goOn .file
            (if e.content.length < e.size then
              pure (.error (.truncatedEntry (.inner (front ++ [name]))))
            else extractEntries host base (count + 1) (.inner (front ++ [name]) :: seen)
              entries)) := by
      rw [extractEntries, hcheck]
      simp only [join_text_inner hbase hnames, within_extend, Bool.not_true, Bool.false_eq_true,
        if_false]
      congr 1
      funext outcome
      cases outcome <;> rfl
    rw [hfiles]
    by_cases hconflict : ∃ file ∈ files, file.1 <+: front ++ [name] ∨ front ++ [name] <+: file.1
    · obtain ⟨error, herror⟩ := h.unpackEntry_fails e hconflict
      have hattempt : ((extractEntry host ((clean base).extend (front ++ [name])) e).attempt
          disk).result = .ok (.error error) := by
        rw [Os.attempt, herror]
      have hresult : (extractEntries host base count seen (e :: entries) disk).result =
          .ok (.error (.file error)) := by
        rw [hloop, Os.bind_ok hattempt]
        rfl
      rw [hresult]
      refine ⟨⟨fun heq => ?_, ?_⟩, fun heq => ?_⟩
      · cases heq
      · rintro ⟨-, hfree⟩
        obtain ⟨file, hmem, hbegins⟩ := hconflict
        have hclear := hfree file hmem _ mem_cons_self
        exact (hbegins.elim hclear.1 hclear.2).elim
      · cases heq
    · have hfree : ∀ file ∈ files, ClearOf file (front ++ [name], e.content) := by
        intro file hmem
        exact ⟨fun hbegins => hconflict ⟨file, hmem, .inl hbegins⟩,
          fun hbegins => hconflict ⟨file, hmem, .inr hbegins⟩⟩
      have hstep := h.unpackEntry hfull e (by rwa [hfit.take_size])
      rw [hfit.take_size] at hstep
      obtain ⟨hok, hlaid⟩ := hstep
      have hattempt : ((extractEntry host ((clean base).extend (front ++ [name])) e).attempt
          disk).result = .ok (.ok ()) := by
        rw [Os.attempt, hok]
      have hwhole := hfit.whole
      obtain ⟨hiff, hrest⟩ := @ih _ _ (count + 1) (.inner (front ++ [name]) :: seen) hnodup.2 (by
          intro other hother hmem
          rcases mem_cons.mp hmem with rfl | hmem
          · exact hnodup.1 hother
          · exact hseen other (mem_cons_of_mem _ hother) hmem)
        (fun _ => by omega) hlaid
      rw [hloop, Os.bind_ok hattempt]
      simp only [goOn, if_neg (show ¬ (e.content.length : Int) < e.size by omega)]
      constructor
      · refine hiff.trans ?_
        simp only [pairwise_cons, mem_cons, forall_eq_or_imp]
        constructor
        · rintro ⟨hpairwise, hhead, hall⟩
          exact ⟨⟨hhead, hpairwise⟩, fun file hmem => ⟨hfree file hmem, hall file hmem⟩⟩
        · rintro ⟨⟨hhead, hpairwise⟩, hall⟩
          exact ⟨hpairwise, hhead, fun file hmem => (hall file hmem).2⟩
      · intro hresult
        rw [reverse_cons, append_assoc, singleton_append]
        exact hrest hresult

end Unpacking

/-! ## Archives that are accepted, unpacked -/

/-- No entry is called as one of the directories of another one. -/
def NoneBelow (entries : List TarEntry) : Prop :=
  ∀ e ∈ entries, ∀ other ∈ entries, ∀ names names',
    safeArchivePath e.name = .ok (.inner names) →
      safeArchivePath other.name = .ok (.inner names') → names <+: names' → names = names'

/-- The file that an entry becomes. -/
def BecomesFile (e : TarEntry) (file : UnpackedFile) : Prop :=
  file.1 ≠ [] ∧ safeArchivePath e.name = .ok (.inner file.1) ∧ file.2 = e.content

/-- An archive is unpacked: each entry becomes one regular file below the destination, these are
    all the files there, and nothing changes elsewhere. -/
def Unpacks (host : Host) (data : PackageData) (base : Bytes) (place : Location)
    (disk : FileTree) : Prop :=
  (extractPackage host data base disk).result = .ok (.ok ()) ∧
    ∃ files, List.Forall₂ BecomesFile data.entries files ∧ (files.map Prod.fst).Nodup ∧
      (∀ names content, (extractPackage host data base disk).disk.shapeAt (place ++ names) =
        some (.file content) ↔ (names, content) ∈ files) ∧
      ∀ other, ¬ place <+: other →
        (extractPackage host data base disk).disk.shapeAt other = disk.shapeAt other

variable {entries : List TarEntry}

theorem unpackedFiles_become {paths : List Path} (h : List.Forall₂ EntryFits entries paths) :
    List.Forall₂ BecomesFile entries (unpackedFiles entries paths) := by
  induction h with
  | nil => exact .nil
  | @cons e path entries paths hfit _ ih =>
    obtain ⟨names, hnames, -, rfl⟩ := safeArchivePath_eq_ok hfit.safe
    exact .cons ⟨hnames, hfit.safe, rfl⟩ ih

theorem unpackedFiles_names {paths : List Path} (h : List.Forall₂ EntryFits entries paths) :
    paths = (unpackedFiles entries paths).map fun file => .inner file.1 := by
  induction h with
  | nil => rfl
  | @cons e path entries paths hfit _ ih =>
    obtain ⟨names, -, -, rfl⟩ := safeArchivePath_eq_ok hfit.safe
    rw [unpackedFiles, zipWith_cons_cons, map_cons, List.cons.injEq]
    exact ⟨rfl, ih⟩

theorem mem_names_iff {files : List UnpackedFile} (h : List.Forall₂ BecomesFile entries files)
    (names : List FileName) :
    (∃ e ∈ entries, safeArchivePath e.name = .ok (.inner names)) ↔
      ∃ file ∈ files, file.1 = names := by
  induction h with
  | nil => simp
  | @cons e file entries files hfile _ ih =>
    simp only [mem_cons, exists_eq_or_imp]
    apply or_congr _ ih
    rw [hfile.2.1, Except.ok.injEq]
    exact ⟨fun heq => congrArg Path.names heq, fun heq => congrArg Path.inner heq⟩

theorem noneBelow_iff {files : List UnpackedFile} (h : List.Forall₂ BecomesFile entries files)
    (hnodup : (files.map Prod.fst).Nodup) :
    NoneBelow entries ↔ files.Pairwise ClearOf := by
  constructor
  · intro hnone
    have hbelow : ∀ file ∈ files, ∀ other ∈ files, file.1 <+: other.1 → file.1 = other.1 := by
      intro file hfile other hother
      obtain ⟨e, he, hname⟩ := (mem_names_iff h _).mpr ⟨file, hfile, rfl⟩
      obtain ⟨e', he', hname'⟩ := (mem_names_iff h _).mpr ⟨other, hother, rfl⟩
      exact hnone e he e' he' _ _ hname hname'
    refine (pairwise_map.mp hnodup).imp_of_mem ?_
    intro file other hfile hother hne
    exact ⟨fun hbegins => hne (hbelow file hfile other hother hbegins),
      fun hbegins => hne (hbelow other hother file hfile hbegins).symm⟩
  · intro hclear e he other hother names names' hname hname' hbegins
    obtain ⟨file, hfile, rfl⟩ := (mem_names_iff h _).mp ⟨e, he, hname⟩
    obtain ⟨file', hfile', rfl⟩ := (mem_names_iff h _).mp ⟨other, hother, hname'⟩
    by_contra hne
    have hdiffer : file ≠ file' := fun heq => hne (congrArg Prod.fst heq)
    exact (hclear.forall hfile hfile' hdiffer).1 hbegins

/-- An archive that is accepted is unpacked into an empty directory if and only if none of its
    entries is called as a directory of another one. -/
theorem unpacks_iff {text : Bytes → List Char} {data : PackageData} {name version : String}
    {m : ProjectManifest} {host : Host} {base : Bytes} {place : Location} {disk : FileTree}
    (haccepted : validatePackageArchive text data name version = .ok m) (hbase : base ≠ [])
    (hempty : EmptyDirectory host (clean base) place disk) (hfull : host.full = false) :
    Unpacks host data base place disk ↔ NoneBelow data.entries := by
  obtain ⟨hlength, found, hfound, hbroken, hexpanded, -⟩ :=
    validatePackageArchive_eq_ok.mp haccepted
  obtain ⟨paths, hfits, hnodup, -, hcount, -⟩ := inspectEntries_eq_ok.mp hfound
  have hbecome := unpackedFiles_become hfits
  have hnames : ((unpackedFiles data.entries paths).map Prod.fst).Nodup := by
    rw [unpackedFiles_names hfits] at hnodup
    apply List.Nodup.of_map Path.inner
    rwa [map_map]
  obtain ⟨hiff, hlaid⟩ := hempty.laid.unpackEntries hbase hfull hfits hnodup
    (fun _ _ => not_mem_nil) hcount
  have hloop : extractPackage host data base =
      extractEntries host base 0 [] data.entries >>= goOn id (pure (.ok ())) := by
    rw [extractPackage, if_neg (by omega)]
    simp only [hbroken, if_neg (show ¬ data.expanded > maxPackageArchiveExpandedBytes by omega)]
    congr 1
    funext outcome
    cases outcome <;> rfl
  -- nothing is left to be done behind the loop
  have hrun : (extractPackage host data base disk).result =
        (extractEntries host base 0 [] data.entries disk).result ∧
      (extractPackage host data base disk).disk =
        (extractEntries host base 0 [] data.entries disk).disk := by
    rw [hloop]
    cases hentries : (extractEntries host base 0 [] data.entries disk).result with
    | error error =>
      rw [Os.bind_error hentries]
      exact ⟨rfl, rfl⟩
    | ok outcome =>
      rw [Os.bind_ok hentries]
      cases outcome <;> exact ⟨rfl, rfl⟩
  rw [Unpacks, hrun.1, hrun.2, noneBelow_iff hbecome hnames]
  constructor
  · rintro ⟨hresult, -⟩
    exact (hiff.mp hresult).1
  · intro hclear
    have hresult := hiff.mpr ⟨hclear, fun _ hmem => absurd hmem not_mem_nil⟩
    refine ⟨hresult, _, hbecome, hnames, ?_, (hlaid hresult).outside⟩
    intro names content
    rw [(hlaid hresult).file, append_nil, mem_reverse]

end Kryndel
