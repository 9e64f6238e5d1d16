import Kryndel.Package.Unpacking

/-!
# Archives that are packed

The entries that `PackageArchive` writes for the files of a project are accepted when the
project is one, except that files whose names differ may be called the same in the archive.
-/

namespace Kryndel

open List

/-! ## Packing -/

/-- No two files that are packed have the same name in the archive. -/
def DistinctNames (project : ProjectFiles) : Prop :=
  ∀ f ∈ project.files, ∀ other ∈ project.files, f.skipped = false → other.skipped = false →
    safeArchivePath f.rel.text = safeArchivePath other.rel.text → f = other

theorem collectFiles_eq_ok {files found collected : List WalkedFile}
    (h : collectFiles found files = .ok collected)
    (hfound : found.length ≤ maxPackageArchiveEntries) :
    collected = found ++ files.filter (fun f => !f.skipped) ∧
      collected.length ≤ maxPackageArchiveEntries := by
  induction files generalizing found with
  | nil =>
    cases h
    simpa using hfound
  | cons f files ih =>
    rw [collectFiles] at h
    split at h
    · cases h
    · split at h
      · next hskipped =>
        rw [filter_cons_of_neg (by simp [hskipped])]
        exact ih h hfound
      · next hskipped =>
        split at h
        · cases h
        · rw [filter_cons_of_pos (by simp [hskipped])]
          obtain ⟨hcollected, hlength⟩ := ih h (by
            rw [length_append, length_singleton]
            omega)
          rw [append_assoc] at hcollected
          exact ⟨hcollected, hlength⟩

theorem archiveEntry_eq_ok {f : WalkedFile} {e : TarEntry} (h : archiveEntry f = .ok e) :
    ∃ path, safeArchivePath f.rel.text = .ok path ∧ EntryFits e path ∧ e.content = f.content := by
  obtain ⟨path, hpath, h⟩ := bind_eq_ok h
  rw [ite_throw_eq_ok] at h
  obtain ⟨hsmall, h⟩ := h
  cases h
  exact ⟨path, hpath, ⟨rfl, safeArchivePath_text hpath, rfl, Nat.le_of_not_lt hsmall⟩, rfl⟩

variable {entries : List TarEntry}

theorem mapM_archiveEntry {files : List WalkedFile} (h : files.mapM archiveEntry = .ok entries) :
    ∃ paths, List.Forall₂ EntryFits entries paths ∧
      paths.map Except.ok = files.map (fun f => safeArchivePath f.rel.text) ∧
        ∀ f ∈ files, ∃ entry ∈ entries.zip paths,
          safeArchivePath f.rel.text = .ok entry.2 ∧ entry.1.content = f.content := by
  induction files generalizing entries with
  | nil =>
    cases h
    exact ⟨[], .nil, rfl, fun f hmem => absurd hmem not_mem_nil⟩
  | cons f files ih =>
    rw [mapM_cons] at h
    obtain ⟨e, he, h⟩ := bind_eq_ok h
    obtain ⟨rest, hrest, h⟩ := bind_eq_ok h
    cases h
    obtain ⟨path, hpath, hfits, hcontent⟩ := archiveEntry_eq_ok he
    obtain ⟨paths, hall, hpaths, hentries⟩ := ih hrest
    refine ⟨path :: paths, .cons hfits hall, by rw [map_cons, map_cons, hpath, hpaths],
      ?_⟩
    intro other hother
    rcases mem_cons.mp hother with rfl | hother
    · exact ⟨(e, path), mem_cons_self, hpath, hcontent⟩
    · obtain ⟨entry, hmem, hentry⟩ := hentries other hother
      exact ⟨entry, mem_cons_of_mem _ hmem, hentry⟩

theorem map_ok_of_fits {paths : List Path} (h : List.Forall₂ EntryFits entries paths) :
    paths.map Except.ok = entries.map fun e => safeArchivePath e.name := by
  induction h with
  | nil => rfl
  | cons hfit _ ih => rw [map_cons, map_cons, hfit.safe, ih]

theorem nodup_texts {paths : List Path} (h : List.Forall₂ EntryFits entries paths)
    (hnodup : paths.Nodup) :
    ((entries.zip paths).map fun entry => entry.2.text).Nodup := by
  have hzip : (entries.zip paths).map Prod.snd = paths :=
    map_snd_zip (by rw [h.length_eq])
  have hsnd : (entries.zip paths).map (fun entry => entry.2.text) = paths.map Path.text := by
    rw [← congrArg (List.map Path.text) hzip, map_map]
    rfl
  rw [hsnd]
  have hread : ∀ path ∈ paths, safeArchivePath path.text = .ok path := by
    intro path hpath
    have hmem : Except.ok path ∈ paths.map (Except.ok (ε := ArchiveError)) :=
      mem_map_of_mem hpath
    rw [map_ok_of_fits h] at hmem
    obtain ⟨e, -, he⟩ := mem_map.mp hmem
    exact safeArchivePath_text he
  refine List.Nodup.map_on ?_ hnodup
  intro path hpath other hother htext
  have hpath := hread path hpath
  rw [htext, hread other hother] at hpath
  exact (Except.ok.inj hpath).symm

/-- What is written by `PackageArchive`, within the limits on archives. -/
structure WrittenArchive (entries : List TarEntry) (data : PackageData) : Prop where
  entries : data.entries = entries
  whole : data.broken = false
  length : data.length ≤ maxPackageArchiveBytes
  expanded : data.expanded ≤ maxPackageArchiveExpandedBytes

variable {m : ProjectManifest}

theorem parseManifest_nil : parseManifest [] ≠ .ok m := by
  intro h
  have herror : parseManifest [] = .error .invalidName := rfl
  cases h

theorem safeArchivePath_kryToml {path : Path}
    (h : safeArchivePath (ascii "kry.toml") = .ok path) : path.text = ascii "kry.toml" := by
  have hsafe : (safeArchivePath (ascii "kry.toml")).map Path.text = .ok (ascii "kry.toml") := rfl
  rw [h] at hsafe
  exact Except.ok.inj hsafe

theorem safeArchivePath_mainKry {path : Path}
    (h : safeArchivePath (ascii "main.kry") = .ok path) : path.text = ascii "main.kry" := by
  have hsafe : (safeArchivePath (ascii "main.kry")).map Path.text = .ok (ascii "main.kry") := rfl
  rw [h] at hsafe
  exact Except.ok.inj hsafe

theorem not_skipped_of_text {f : WalkedFile} {name : Bytes} (h : f.rel.text = name)
    (hname : name.splitOn slash = [name]) (hlock : name ≠ ascii "kry.lock")
    (hstore : name ≠ ascii ".DS_Store") : f.skipped = false := by
  rw [WalkedFile.skipped, h, Bool.or_eq_false_iff]
  refine ⟨decide_eq_false hlock, decide_eq_false ?_⟩
  by_cases hplace : f.place = []
  · rw [hplace]
    simp
  · have hsplit := Path.splitOn_text_inner hplace
    rw [show (Path.inner f.place).text = name from h, hname] at hsplit
    obtain ⟨file, hfile, htext⟩ := map_eq_singleton_iff.mp hsplit.symm
    rw [hfile, getLast?_singleton, Option.map_some, htext]
    exact fun heq => hstore (Option.some.inj heq)

/-- A project whose manifest is accepted and that has a `main.kry` is packed into an archive
    that is accepted if and only if no two files are packed under the same name. -/
theorem packed_iff {text : Bytes → List Char} (htext : text [] = []) {project : ProjectFiles}
    {data : PackageData} (hpack : packageArchive project = .ok entries)
    (hdata : WrittenArchive entries data)
    (hkry : ∃ f ∈ project.files, f.rel.text = ascii "kry.toml" ∧
      parseManifest (text f.content) = .ok m)
    (hmain : ∃ f ∈ project.files, f.rel.text = ascii "main.kry") :
    validatePackageArchive text data m.name m.version = .ok m ↔ DistinctNames project := by
  obtain ⟨collected, hcollect, hpack⟩ := bind_eq_ok hpack
  obtain ⟨hcollected, hlength⟩ := collectFiles_eq_ok hcollect (by simp)
  rw [nil_append] at hcollected
  obtain ⟨paths, hfits, hpaths, hentries⟩ := mapM_archiveEntry hpack
  generalize hsort : collected.insertionSort (fun a b => a.rel.text ≤ b.rel.text) = sorted
    at hpaths hentries
  have hperm : sorted.Perm (project.files.filter fun f => !f.skipped) := by
    rw [← hsort, ← hcollected]
    exact perm_insertionSort _ _
  have hmem : ∀ f, f ∈ sorted ↔ f ∈ project.files ∧ f.skipped = false := by
    intro f
    rw [hperm.mem_iff, mem_filter, Bool.not_eq_true']
  have hnodup : sorted.Nodup :=
    hperm.nodup_iff.mpr ((List.Nodup.of_map _ project.distinct).filter _)
  have hcount : entries.length ≤ maxPackageArchiveEntries := by
    have hlengths := congrArg List.length hpaths
    rw [length_map, length_map] at hlengths
    rw [hfits.length_eq, hlengths, hperm.length_eq, ← hcollected]
    exact hlength
  -- the paths differ exactly if the names of the files in the archive do
  have hdistinct : paths.Nodup ↔ DistinctNames project := by
    have hinj : Function.Injective (Except.ok (ε := ArchiveError) (α := Path)) :=
      fun _ _ h => Except.ok.inj h
    rw [← nodup_map_iff hinj, hpaths, nodup_map_iff_inj_on hnodup]
    constructor
    · intro h f hf other hother hskipped hskipped' heq
      exact h f ((hmem f).mpr ⟨hf, hskipped⟩) other ((hmem other).mpr ⟨hother, hskipped'⟩) heq
    · intro h f hf other hother heq
      obtain ⟨hf, hskipped⟩ := (hmem f).mp hf
      obtain ⟨hother, hskipped'⟩ := (hmem other).mp hother
      exact h f hf other hother hskipped hskipped' heq
  rw [← hdistinct, validatePackageArchive_eq_ok, hdata.entries]
  constructor
  · rintro ⟨-, found, hfound, -⟩
    obtain ⟨paths', hfits', hnodup', -⟩ := inspectEntries_eq_ok.mp hfound
    have heq : paths'.map (Except.ok (ε := ArchiveError)) = paths.map Except.ok := by
      rw [map_ok_of_fits hfits', map_ok_of_fits hfits]
    rwa [map_injective_iff.mpr (fun _ _ h => Except.ok.inj h) heq] at hnodup'
  · intro hpathsNodup
    have hfound := @inspectEntries_eq_ok entries 0 [] {} _ |>.mpr ⟨paths, hfits, hpathsNodup,
      fun _ _ => not_mem_nil, fun _ => by omega, rfl⟩
    refine ⟨hdata.length, _, hfound, hdata.whole, hdata.expanded, ?_⟩
    obtain ⟨f, hf, hname, hparse⟩ := hkry
    obtain ⟨g, hg, hname'⟩ := hmain
    obtain ⟨⟨e, path⟩, hentry, hpath, hcontent⟩ := hentries f
      ((hmem f).mpr ⟨hf, not_skipped_of_text hname rfl (by decide) (by decide)⟩)
    obtain ⟨⟨e', path'⟩, hentry', hpath', -⟩ := hentries g
      ((hmem g).mpr ⟨hg, not_skipped_of_text hname' rfl (by decide) (by decide)⟩)
    have hmanifest :
        ((Inspected.mk [] false).noteAll (entries.zip paths)).manifest = f.content := by
      rw [← hcontent]
      rw [hname] at hpath
      exact noteAll_manifest (safeArchivePath_kryToml hpath) hentry (nodup_texts hfits hpathsNodup)
    rw [hname'] at hpath'
    refine ⟨?_, noteAll_mainFound (.inr ⟨_, hentry', safeArchivePath_mainKry hpath'⟩), ?_, rfl, rfl⟩
    · rw [hmanifest]
      intro hnil
      rw [hnil, htext] at hparse
      exact parseManifest_nil hparse
    · rw [hmanifest, hparse]

/-! ## Validation and unpacking agree -/

section Demo

/-- Bytes that are read as characters, as far as they are ASCII. -/
def asciiText (bytes : Bytes) : List Char :=
  bytes.map fun b => Char.ofNat b.toNat

def demoToml : Bytes :=
  ascii "[package]\nname = \"demo\"\nversion = \"0.1.0\"\nkryndel = \">=1.3.0\"\n"

def fileNamed (name : String) (h : ascii name ≠ [] ∧ ascii name ≠ ascii "." ∧
    ascii name ≠ ascii ".." ∧ slash ∉ ascii name) : FileName :=
  ⟨ascii name, h⟩

/-- A file of a project, as it is found. -/
def demoFile (place : Location) (content : Bytes) : WalkedFile where
  place := place
  content := content

def demoEntry (name content : Bytes) : TarEntry :=
  ⟨name, typeReg, content.length, content⟩

/-- An archive with a manifest, a `main.kry` and further entries. -/
def demoArchive (more : List TarEntry) : PackageData where
  length := 200
  entries := demoEntry (ascii "kry.toml") demoToml :: demoEntry (ascii "main.kry") [] :: more
  expanded := 4096

/-- The file `a` and a file below `a`. -/
def conflictingEntries : List TarEntry :=
  [demoEntry (ascii "a") [], demoEntry (ascii "a/b") []]

def demoHost : Host where
  cwd := []
  tempName _ := fileNamed "t" (by decide)
  full := false

def demoPlace : Location := [fileNamed "pkg" (by decide)]

/-- A disk with an empty directory `/pkg`. -/
def demoDisk : FileTree :=
  .directory [(fileNamed "pkg" (by decide), .directory [])]

theorem demoDisk_empty : EmptyDirectory demoHost (clean (ascii "/pkg")) demoPlace demoDisk := by
  refine ⟨by decide +kernel, by decide +kernel, ?_⟩
  intro names hnames
  obtain ⟨name, rest, rfl⟩ := exists_cons_of_ne_nil hnames
  rfl

/-- The files of a project with the files `a\b` and `a/b`. -/
def backslashFiles : List WalkedFile :=
  [demoFile [fileNamed "a" (by decide), fileNamed "b" (by decide)] [],
    demoFile [fileNamed "a\\b" (by decide)] [],
    demoFile [fileNamed "kry.toml" (by decide)] demoToml,
    demoFile [fileNamed "main.kry" (by decide)] []]

def backslashProject : ProjectFiles where
  files := backslashFiles
  distinct := by decide
  below := by decide

/-- A project with a manifest and a `main.kry`. -/
def demoProject : ProjectFiles where
  files := [demoFile [fileNamed "kry.toml" (by decide)] demoToml,
    demoFile [fileNamed "main.kry" (by decide)] []]
  distinct := by decide
  below := by decide

theorem demoArchive_noneBelow : NoneBelow (demoArchive []).entries := by
  have hone : ∀ e ∈ (demoArchive []).entries, ∀ names,
      safeArchivePath e.name = .ok (.inner names) → names.length = 1 := by
    intro e he names h
    have hlength : (safeArchivePath e.name).map (fun path => path.names.length) = .ok 1 := by
      rcases mem_cons.mp he with rfl | he
      · rfl
      · rw [mem_singleton.mp he]
        rfl
    rw [h] at hlength
    exact Except.ok.inj hlength
  intro e he other hother names names' hnames hnames' hbegins
  have hlength := (hone e he names hnames).trans (hone other hother names' hnames').symm
  exact hbegins.eq_of_length hlength

theorem demoProject_distinct : DistinctNames demoProject := by
  have hdiffer : ((safeArchivePath (ascii "kry.toml")).toOption.map Path.text) ≠
      ((safeArchivePath (ascii "main.kry")).toOption.map Path.text) := by
    decide
  intro f hf other hother _ _ heq
  rcases mem_cons.mp hf with rfl | hf <;> rcases mem_cons.mp hother with rfl | hother
  · rfl
  · rw [mem_singleton.mp hother] at heq
    exact absurd (congrArg (fun result => result.toOption.map Path.text) heq) hdiffer
  · rw [mem_singleton.mp hf] at heq
    exact absurd (congrArg (fun result => result.toOption.map Path.text) heq).symm hdiffer
  · rw [mem_singleton.mp hf, mem_singleton.mp hother]

end Demo

end Kryndel
