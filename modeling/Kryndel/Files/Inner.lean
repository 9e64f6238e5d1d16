import Kryndel.Files.Path
import Kryndel.Systems.Lines

/-!
# Paths of names

Paths that lead from a directory to something below it have names only. They are read back
from their texts, and behind another path they add their names to it.
-/

namespace Kryndel

open List

/-- The path of names in the directory where it is read. -/
def Path.inner (names : List FileName) : Path :=
  ⟨false, 0, names, by simp⟩

theorem Path.parts_inner (names : List FileName) : (inner names).parts = names.map .name := rfl

theorem Path.inner_eq_extend (names : List FileName) : inner names = (start false).extend names :=
  rfl

variable {names : List FileName}

theorem Path.text_inner (hnames : names ≠ []) :
    (inner names).text = [slash].intercalate (names.map FileName.text) := by
  rw [text, if_neg (by simp [inner]), parts_inner, if_neg (by simpa using hnames), map_map]
  rfl

theorem Path.splitOn_text_inner (hnames : names ≠ []) :
    (inner names).text.splitOn slash = names.map FileName.text := by
  rw [text_inner hnames]
  apply splitOn_intercalate
  · intro text htext
    obtain ⟨name, -, rfl⟩ := mem_map.mp htext
    exact name.ordinary.2.2.2
  · simpa using hnames

theorem component_text (name : FileName) : component name.text = some (.name name) := by
  rw [component, if_neg name.ordinary.2.2.1, dif_pos name.ordinary]

theorem Path.components_text_inner (hnames : names ≠ []) :
    components (inner names).text = names.map .name := by
  rw [components, splitOn_text_inner hnames, filterMap_map]
  have hcomp : component ∘ FileName.text = fun name => some (Component.name name) :=
    funext component_text
  rw [hcomp, filterMap_eq_map']

theorem Path.isAbs_text_inner (hnames : names ≠ []) :
    isAbs (inner names).text = false := by
  obtain ⟨name, rest, rfl⟩ := exists_cons_of_ne_nil hnames
  obtain ⟨b, text, htext⟩ := exists_cons_of_ne_nil name.ordinary.1
  have hb : b ≠ slash := by
    rintro rfl
    apply name.ordinary.2.2.2
    rw [htext]
    exact mem_cons_self
  rw [text_inner hnames, map_cons, htext]
  cases rest <;> simpa [isAbs, List.intercalate] using hb

theorem clean_text_inner (hnames : names ≠ []) :
    clean (Path.inner names).text = .inner names := by
  rw [clean, Path.isAbs_text_inner hnames, Path.components_text_inner hnames,
    Path.foldl_push_names, Path.inner_eq_extend]

theorem join_text_inner {base : Bytes} (hbase : base ≠ []) (hnames : names ≠ []) :
    join base (Path.inner names).text = (clean base).extend names := by
  have hparent : hasParent (Path.inner names).text = false := by
    rw [hasParent, Path.splitOn_text_inner hnames, contains_eq_mem, decide_eq_false_iff_not]
    intro hmem
    obtain ⟨name, -, hname⟩ := mem_map.mp hmem
    exact name.ordinary.2.2.1 hname
  obtain ⟨names', hcomponents, hjoin⟩ := join_eq_extend hbase hparent
  rw [Path.components_text_inner hnames] at hcomponents
  have hinj : Function.Injective Component.name := fun _ _ h => Component.name.inj h
  rw [hjoin, map_injective_iff.mpr hinj hcomponents]

theorem Path.foldl_push_absolute (comps : List Component) (path : Path) :
    (comps.foldl push path).absolute = path.absolute := by
  induction comps generalizing path with
  | nil => rfl
  | cons comp comps ih =>
    rw [foldl_cons, ih]
    cases comp with
    | up =>
      show path.above.absolute = _
      rw [above]
      split
      · rfl
      · split <;> rfl
    | name name => rfl

variable {name : FileName}

theorem Path.mem_foldl_push {comps : List Component} {path : Path}
    (h : name ∈ (comps.foldl push path).names) : name ∈ path.names ∨ .name name ∈ comps := by
  induction comps generalizing path with
  | nil => exact .inl h
  | cons comp comps ih =>
    rcases ih h with h | h
    · cases comp with
      | up =>
        left
        change name ∈ path.above.names at h
        rw [above] at h
        split at h
        · exact dropLast_subset _ h
        · split at h
          · exact h
          · cases h
      | name name' =>
        rcases mem_append.mp h with h | h
        · exact .inl h
        · right
          rw [mem_singleton.mp h]
          exact mem_cons_self
    · exact .inr (mem_cons_of_mem _ h)

theorem component_eq_name {part : Bytes} (h : component part = some (.name name)) :
    name.text = part := by
  rw [component] at h
  split at h
  · cases h
  · split at h
    · rw [← Component.name.inj (Option.some.inj h)]
    · cases h

theorem mem_of_mem_clean {path : Bytes} (h : name ∈ (clean path).names) {b : UInt8}
    (hb : b ∈ name.text) : b ∈ path := by
  rcases Path.mem_foldl_push h with h | h
  · cases h
  · obtain ⟨part, hpart, hname⟩ := mem_filterMap.mp h
    rw [component_eq_name hname] at hb
    exact Systems.mem_of_mem_splitOn hpart hb

end Kryndel
