import Kryndel.Files.Inner
import Kryndel.Package.Archive
import Kryndel.Syntax.Source

/-!
# Archives that are accepted

What `validatePackageArchive` says about the entries of an archive: their names lead below the
directory in which they are unpacked, no two of them have the same cleaned name, and the
manifest is the content of one of them.
-/

namespace Kryndel

open List

/-! ## Safe paths -/

/-- No name has a backslashByte or a zero byte. -/
def SafeNames (names : List FileName) : Prop :=
  ∀ name ∈ names, backslashByte ∉ name.text ∧ 0 ∉ name.text

variable {path : Path}

theorem safeArchivePath_eq_ok {name : Bytes} (h : safeArchivePath name = .ok path) :
    ∃ names, names ≠ [] ∧ SafeNames names ∧ path = .inner names := by
  rw [safeArchivePath] at h
  generalize hmap : name.map (fun b => if b = backslashByte then slash else b) = name' at h
  simp only [Bool.or_eq_true, decide_eq_true_eq, contains_eq_mem] at h
  split at h
  · cases h
  · next hsafe =>
    split at h
    · cases h
    · next hinside =>
      rw [not_or, not_or] at hsafe
      rw [not_or] at hinside
      have habs : (clean name').absolute = false := by
        rw [clean, Path.foldl_push_absolute]
        exact Bool.eq_false_iff.mpr hsafe.1.2
      have hups : (clean name').ups = 0 := by
        by_contra hne
        obtain ⟨k, hk⟩ := Nat.exists_eq_succ_of_ne_zero hne
        apply hinside.2
        rw [Path.parts, hk]
        rfl
      have hnames : (clean name').names ≠ [] := by
        intro hnil
        apply hinside.1
        rw [Path.parts, hups, hnil]
        rfl
      refine ⟨(clean name').names, hnames, ?_, ?_⟩
      · -- the names are made of bytes of the path, in which backslashes were replaced
        intro part hpart
        refine ⟨fun hb => ?_, fun hb => hsafe.2 (mem_of_mem_clean hpart hb)⟩
        have hmem := mem_of_mem_clean hpart hb
        rw [← hmap] at hmem
        obtain ⟨b, -, hb⟩ := mem_map.mp hmem
        split at hb
        · cases hb
        · contradiction
      · rw [← Except.ok.inj h]
        cases hclean : clean name' with
        | mk absolute ups names rooted =>
          rw [hclean] at habs hups
          cases habs
          cases hups
          rfl

variable {names : List FileName}

theorem mem_text_inner (hnames : names ≠ []) {b : UInt8} (h : b ∈ (Path.inner names).text) :
    b = slash ∨ ∃ name ∈ names, b ∈ name.text := by
  obtain rfl | ⟨piece, hpiece, hb⟩ := Systems.mem_splitOn_of_mem (a := slash) h
  · exact .inl rfl
  · rw [Path.splitOn_text_inner hnames] at hpiece
    obtain ⟨name, hname, rfl⟩ := mem_map.mp hpiece
    exact .inr ⟨name, hname, hb⟩

theorem safeArchivePath_inner (hnames : names ≠ []) (hplain : SafeNames names) :
    safeArchivePath (Path.inner names).text = .ok (.inner names) := by
  have hslash : backslashByte ≠ slash ∧ (0 : UInt8) ≠ slash := by decide
  have hbackslash : backslashByte ∉ (Path.inner names).text := by
    intro h
    rcases mem_text_inner hnames h with h | ⟨name, hname, h⟩
    · exact hslash.1 h
    · exact (hplain name hname).1 h
  have hzero : (0 : UInt8) ∉ (Path.inner names).text := by
    intro h
    rcases mem_text_inner hnames h with h | ⟨name, hname, h⟩
    · exact hslash.2 h
    · exact (hplain name hname).2 h
  have hmap : (Path.inner names).text.map (fun b => if b = backslashByte then slash else b) =
      (Path.inner names).text := by
    rw [map_congr_left (g := id), map_id]
    intro b hb
    rw [if_neg]
    · rfl
    · rintro rfl
      exact hbackslash hb
  have hne : (Path.inner names).text ≠ [] := by
    intro h
    have hsplit := Path.splitOn_text_inner hnames
    rw [h, splitOn_nil] at hsplit
    obtain ⟨name, rest, rfl⟩ := exists_cons_of_ne_nil hnames
    rw [map_cons, List.cons.injEq] at hsplit
    exact name.ordinary.1 hsplit.1.symm
  obtain ⟨name, rest, hcons⟩ := exists_cons_of_ne_nil hnames
  rw [safeArchivePath, hmap, if_neg, clean_text_inner hnames, if_neg]
  · rw [Path.parts_inner, hcons]
    simp
  · simp [hne, hzero, Path.isAbs_text_inner hnames]

theorem safeArchivePath_text {name : Bytes} (h : safeArchivePath name = .ok path) :
    safeArchivePath path.text = .ok path := by
  obtain ⟨names, hnames, hplain, rfl⟩ := safeArchivePath_eq_ok h
  exact safeArchivePath_inner hnames hplain

/-! ## Validation -/

/-- What `validatePackageArchive` asks of an entry by itself. -/
structure EntryFits (e : TarEntry) (path : Path) : Prop where
  regular : e.typeflag = typeReg
  safe : safeArchivePath e.name = .ok path
  whole : e.size = e.content.length
  small : e.content.length ≤ maxPackageEntryBytes

variable {e : TarEntry}

theorem checkEntry_eq_ok {number : Nat} {seen : List Path} :
    checkEntry number seen e = .ok path ↔
      number ≤ maxPackageArchiveEntries ∧ e.typeflag = typeReg ∧
        safeArchivePath e.name = .ok path ∧ path ∉ seen ∧
          0 ≤ e.size ∧ e.size ≤ maxPackageEntryBytes := by
  unfold checkEntry
  by_cases hnumber : maxPackageArchiveEntries < number
  · simp [hnumber]
  · rw [if_neg hnumber]
    by_cases htype : e.typeflag = typeReg
    · rw [if_neg (by simp [htype])]
      cases hsafe : safeArchivePath e.name with
      | error error => simp
      | ok path' =>
        simp only [Except.ok.injEq]
        constructor
        · intro h
          split at h
          · cases h
          · next hseen =>
            split at h
            · cases h
            · next hsize =>
              rw [not_or, not_lt, not_lt] at hsize
              rw [← Except.ok.inj h]
              exact ⟨not_lt.mp hnumber, htype, rfl, hseen, hsize⟩
        · rintro ⟨-, -, rfl, hseen, hsize⟩
          rw [if_neg hseen, if_neg (by omega)]
    · simp [htype]

theorem EntryFits.of_check {number : Nat} {seen : List Path}
    (h : checkEntry number seen e = .ok path)
    (hwhole : ((e.content.take (e.size + 1).toNat).length : Int) = e.size) : EntryFits e path := by
  obtain ⟨-, htype, hsafe, -, hlow, hhigh⟩ := checkEntry_eq_ok.mp h
  rw [length_take] at hwhole
  exact ⟨htype, hsafe, by omega, by omega⟩

theorem EntryFits.check {number : Nat} {seen : List Path} {e : TarEntry} {path : Path}
    (h : EntryFits e path) (hnumber : number ≤ maxPackageArchiveEntries) (hseen : path ∉ seen) :
    checkEntry number seen e = .ok path := by
  have hwhole := h.whole
  have hsmall := h.small
  exact checkEntry_eq_ok.mpr ⟨hnumber, h.regular, h.safe, hseen, by omega, by omega⟩

theorem EntryFits.take (h : EntryFits e path) :
    e.content.take (e.size + 1).toNat = e.content := by
  have hwhole := h.whole
  exact take_of_length_le (by omega)

/-- What is found in entries, under their names. -/
def Inspected.noteAll (found : Inspected) (named : List (TarEntry × Path)) : Inspected :=
  named.foldl (fun found entry => found.note entry.2 entry.1.content) found

/-- Entries that are accepted one after another: each of them fits, no two have the same name,
    and there are not too many. -/
theorem inspectEntries_eq_ok {entries : List TarEntry} {count : Nat} {seen : List Path}
    {found found' : Inspected} :
    inspectEntries count seen found entries = .ok found' ↔
      ∃ paths, List.Forall₂ EntryFits entries paths ∧ paths.Nodup ∧ (∀ path ∈ paths, path ∉ seen) ∧
        (entries ≠ [] → count + entries.length ≤ maxPackageArchiveEntries) ∧
          found.noteAll (entries.zip paths) = found' := by
  induction entries generalizing count seen found with
  | nil =>
    simp only [inspectEntries, Except.ok.injEq]
    constructor
    · rintro rfl
      exact ⟨[], .nil, .nil, by simp, by simp, rfl⟩
    · rintro ⟨paths, -, -, -, -, h⟩
      exact h
  | cons e rest ih =>
    rw [inspectEntries]
    constructor
    · intro h
      cases hcheck : checkEntry (count + 1) seen e with
      | error error =>
        rw [hcheck] at h
        cases h
      | ok path =>
        simp only [hcheck] at h
        split at h
        · cases h
        · next hwhole =>
          rw [not_not] at hwhole
          have hfits := EntryFits.of_check hcheck hwhole
          obtain ⟨hnumber, -, -, hseen, -⟩ := checkEntry_eq_ok.mp hcheck
          obtain ⟨paths, hrest, hnodup, hnew, hcount, hfound⟩ := ih.mp h
          refine ⟨path :: paths, .cons hfits hrest, ?_, ?_, ?_, ?_⟩
          · rw [nodup_cons]
            exact ⟨fun hmem => hnew path hmem mem_cons_self, hnodup⟩
          · intro other hother
            rcases mem_cons.mp hother with rfl | hother
            · exact hseen
            · exact fun hmem => hnew other hother (mem_cons_of_mem _ hmem)
          · intro _
            rw [length_cons]
            by_cases hempty : rest = []
            · rw [hempty]
              exact hnumber
            · have := hcount hempty
              omega
          · rw [hfits.take] at hfound
            exact hfound
    · rintro ⟨paths, hall, hnodup, hnew, hcount, hfound⟩
      cases hall with
      | cons hfits hrest =>
        rename_i path paths
        rw [nodup_cons] at hnodup
        have hcount := hcount (by simp)
        rw [length_cons] at hcount
        rw [hfits.check (by omega) (hnew path mem_cons_self)]
        simp only [hfits.take]
        rw [if_neg (by simp [hfits.whole])]
        refine ih.mpr ⟨paths, hrest, hnodup.2, ?_, fun _ => by omega, hfound⟩
        intro other hother hmem
        rcases mem_cons.mp hmem with rfl | hmem
        · exact hnodup.1 hother
        · exact hnew other (mem_cons_of_mem _ hother) hmem

section Found

variable {found : Inspected} {named : List (TarEntry × Path)}

theorem noteAll_manifest_keeps (h : ∀ entry ∈ named, entry.2.text ≠ ascii "kry.toml") :
    (found.noteAll named).manifest = found.manifest := by
  induction named generalizing found with
  | nil => rfl
  | cons entry named ih =>
    have hrest := @ih (found.note entry.2 entry.1.content) fun other hother =>
      h other (mem_cons_of_mem _ hother)
    exact hrest.trans (if_neg (h entry mem_cons_self))

theorem noteAll_manifest (hname : path.text = ascii "kry.toml") (hmem : (e, path) ∈ named)
    (hnodup : (named.map fun entry => entry.2.text).Nodup) :
    (found.noteAll named).manifest = e.content := by
  induction named generalizing found with
  | nil => cases hmem
  | cons entry named ih =>
    rw [map_cons, nodup_cons] at hnodup
    rcases mem_cons.mp hmem with rfl | hmem
    · have hkeeps := @noteAll_manifest_keeps (found.note path e.content) named
        fun other hother htext =>
          hnodup.1 (mem_map.mpr ⟨other, hother, htext.trans hname.symm⟩)
      exact hkeeps.trans (if_pos hname)
    · exact ih hmem hnodup.2

theorem noteAll_mainFound (h : found.mainFound = true ∨
    ∃ entry ∈ named, entry.2.text = ascii "main.kry") :
    (found.noteAll named).mainFound = true := by
  induction named generalizing found with
  | nil =>
    rcases h with h | ⟨entry, hmem, -⟩
    · exact h
    · cases hmem
  | cons entry named ih =>
    rw [Inspected.noteAll, foldl_cons]
    apply ih
    rcases h with h | ⟨other, hmem, htext⟩
    · left
      rw [Inspected.note, h, ite_self]
    · rcases mem_cons.mp hmem with rfl | hmem
      · exact .inl (if_pos htext)
      · exact .inr ⟨other, hmem, htext⟩

end Found

theorem validatePackageArchive_eq_ok {text : Bytes → List Char} {data : PackageData}
    {name version : String} {m : ProjectManifest} :
    validatePackageArchive text data name version = .ok m ↔
      data.length ≤ maxPackageArchiveBytes ∧
        ∃ found, inspectEntries 0 [] {} data.entries = .ok found ∧ data.broken = false ∧
          data.expanded ≤ maxPackageArchiveExpandedBytes ∧ found.manifest ≠ [] ∧
            found.mainFound = true ∧ parseManifest (text found.manifest) = .ok m ∧
              m.name = name ∧ m.version = version := by
  unfold validatePackageArchive
  simp only [ite_throw_eq_ok, bind_eq_ok_iff, mapError_eq_ok, pure, Except.pure, Except.ok.injEq]
  simp only [gt_iff_lt, not_lt, Bool.not_eq_true, Bool.not_eq_false', Bool.or_eq_true,
    decide_eq_true_eq, not_or, not_not, ne_eq]
  constructor
  · rintro ⟨hlength, found, hfound, hbroken, hexpanded, hmanifest, hmain, m', hparse, hm, rfl⟩
    exact ⟨hlength, found, hfound, hbroken, hexpanded, hmanifest, hmain, hparse, hm⟩
  · rintro ⟨hlength, found, hfound, hbroken, hexpanded, hmanifest, hmain, hparse, hm⟩
    exact ⟨hlength, found, hfound, hbroken, hexpanded, hmanifest, hmain, m, hparse, hm, rfl⟩

end Kryndel
