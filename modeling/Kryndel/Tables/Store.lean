import Mathlib.Data.List.Nodup
import Mathlib.Data.List.Perm.Basic
import Mathlib.Logic.Function.Basic

/-!
# Trees in tables

A tree whose nodes are rows of tables, one table for every kind of node. A row names its
children by their addresses, one by one or by a range of a table of references. Programs put
the rows of a tree down one after another: a row is placed before those of its children and
completed after them.

What such a program has placed can be described by what holds of every later store that still
has the placed rows (`Places`). Such descriptions compose, and say in the end that every row
has one owner (`Owned`).
-/

namespace Tables

open List

/-- A row of the table of a kind. -/
abbrev Address (κ : Type) := κ × Nat

/-- A range of a table of references. -/
structure Range where
  start : Nat := 0
  count : Nat := 0
deriving DecidableEq, Repr, Inhabited

/-- The tables of rows and the tables of references to them. -/
@[ext]
structure Store (κ : Type) (Row : κ → Type) where
  rows : (k : κ) → List (Row k)
  refs : κ → List Nat

/-- What a row refers to. -/
structure Edges (κ : Type) where
  single : List (Address κ) := []
  lists : List (κ × Range) := []

/-- An optional reference to a row of a kind. -/
def Address.optional {κ : Type} (k : κ) (ref : Option Nat) : List (Address κ) :=
  ref.toList.map (k, ·)

variable {κ : Type} {Row : κ → Type}

namespace Store

def empty : Store κ Row where
  rows _ := []
  refs _ := []

/-- The row at an address. -/
def row (s : Store κ Row) (x : Address κ) : Option (Row x.1) :=
  (s.rows x.1)[x.2]?

/-- Adds a row. -/
def place [DecidableEq κ] (s : Store κ Row) (k : κ) (row : Row k) : Store κ Row :=
  { s with rows := Function.update s.rows k (s.rows k ++ [row]) }

/-- Replaces a row. -/
def complete [DecidableEq κ] (s : Store κ Row) (k : κ) (i : Nat) (row : Row k) :
    Store κ Row :=
  { s with rows := Function.update s.rows k ((s.rows k).set i row) }

/-- Adds references. -/
def addRefs [DecidableEq κ] (s : Store κ Row) (k : κ) (indexes : List Nat) : Store κ Row :=
  { s with refs := Function.update s.refs k (s.refs k ++ indexes) }

/-- The range that added references take. -/
def range (s : Store κ Row) (k : κ) (indexes : List Nat) : Range :=
  ⟨(s.refs k).length, indexes.length⟩

/-- The references in a range, unless it is out of bounds. -/
def contents (s : Store κ Row) (k : κ) (r : Range) : Option (List Nat) :=
  if r.start + r.count ≤ (s.refs k).length then
    some (((s.refs k).drop r.start).take r.count)
  else none

/-- The ranges of a row are in bounds. -/
def InRange (s : Store κ Row) (e : Edges κ) : Prop :=
  ∀ l ∈ e.lists, (s.contents l.1 l.2).isSome

/-- The references in a range of a kind. -/
def listed (s : Store κ Row) (k : κ) (r : Range) : List (Address κ) :=
  ((s.contents k r).getD []).map (k, ·)

/-- All references of a row. -/
def targets (s : Store κ Row) (e : Edges κ) : List (Address κ) :=
  e.single ++ e.lists.flatMap fun l => s.listed l.1 l.2

end Store

/-! ## Adding rows -/

/-- A store has got some new rows, and otherwise kept what it had. -/
structure Adds (a b : Store κ Row) (new : List (Address κ)) : Prop where
  rows : ∀ k, a.rows k <+: b.rows k
  refs : ∀ k, a.refs k <+: b.refs k
  mem : ∀ k i, (k, i) ∈ new ↔ (a.rows k).length ≤ i ∧ i < (b.rows k).length
  nodup : new.Nodup

/-- A store has kept some rows, and all references, of another one. -/
structure Keeps (b c : Store κ Row) (rows : List (Address κ)) : Prop where
  rows : ∀ x ∈ rows, c.row x = b.row x
  refs : ∀ k, b.refs k <+: c.refs k

/-- Some rows have been added, and something holds wherever they are kept. -/
structure Places (a b : Store κ Row) (new : List (Address κ)) (holds : Store κ Row → Prop) :
    Prop where
  adds : Adds a b new
  holds : ∀ c, Keeps b c new → holds c

section Places

variable {a b c : Store κ Row} {new new' : List (Address κ)} {P Q : Store κ Row → Prop} {k : κ}

theorem Adds.refl (a : Store κ Row) : Adds a a [] where
  rows _ := prefix_refl _
  refs _ := prefix_refl _
  mem k i := by
    simp only [not_mem_nil, false_iff, not_and, Nat.not_lt]
    exact id
  nodup := nodup_nil

theorem Adds.length_le (h : Adds a b new) (k : κ) : (a.rows k).length ≤ (b.rows k).length :=
  (h.rows k).length_le

theorem Adds.trans (hab : Adds a b new) (hbc : Adds b c new') : Adds a c (new ++ new') where
  rows k := (hab.rows k).trans (hbc.rows k)
  refs k := (hab.refs k).trans (hbc.refs k)
  mem k i := by
    have hle := hab.length_le k
    have hle' := hbc.length_le k
    rw [mem_append, hab.mem, hbc.mem]
    omega
  nodup := by
    refine List.Nodup.append hab.nodup hbc.nodup ?_
    rintro ⟨k, i⟩ hnew hnew'
    have hlt := ((hab.mem k i).mp hnew).2
    have hle := ((hbc.mem k i).mp hnew').1
    omega

theorem Adds.keeps (hab : Adds a b new) (hbc : Adds b c new') : Keeps b c new where
  rows := by
    rintro ⟨k, i⟩ hmem
    have hlt := ((hab.mem k i).mp hmem).2
    show (c.rows k)[i]? = (b.rows k)[i]?
    obtain ⟨rest, hrest⟩ := hbc.rows k
    rw [← hrest, getElem?_append_left hlt, getElem?_eq_getElem hlt]
  refs := hbc.refs

theorem Keeps.left (h : Keeps b c (new ++ new')) : Keeps b c new where
  rows x hx := h.rows x (mem_append_left _ hx)
  refs := h.refs

theorem Keeps.right (h : Keeps b c (new ++ new')) : Keeps b c new' where
  rows x hx := h.rows x (mem_append_right _ hx)
  refs := h.refs

theorem Keeps.trans {d : Store κ Row} (hbc : Keeps b c new) (hcd : Keeps c d new) :
    Keeps b d new where
  rows x hx := (hcd.rows x hx).trans (hbc.rows x hx)
  refs k := (hbc.refs k).trans (hcd.refs k)

theorem Keeps.refl (b : Store κ Row) (new : List (Address κ)) : Keeps b b new where
  rows _ _ := rfl
  refs _ := prefix_refl _

theorem Places.nil (a : Store κ Row) : Places a a [] fun _ => True :=
  ⟨Adds.refl a, fun _ _ => trivial⟩

theorem Places.mono (h : Places a b new P) (hPQ : ∀ c, P c → Q c) : Places a b new Q :=
  ⟨h.adds, fun c hc => hPQ c (h.holds c hc)⟩

theorem Places.trans (hab : Places a b new P) (hbc : Places b c new' Q) :
    Places a c (new ++ new') fun c => P c ∧ Q c where
  adds := hab.adds.trans hbc.adds
  holds d hd := by
    have hkeeps := hab.adds.keeps hbc.adds
    exact ⟨hab.holds d (hkeeps.trans hd.left), hbc.holds d hd.right⟩

theorem Places.present (h : Places a b new P) :
    Places a b new fun c => P c ∧ ∀ x ∈ new, ∃ row, c.row x = some row where
  adds := h.adds
  holds c hc := by
    refine ⟨h.holds c hc, ?_⟩
    intro x hx
    have hlt := ((h.adds.mem x.1 x.2).mp hx).2
    exact ⟨(b.rows x.1)[x.2], (hc.rows x hx).trans (getElem?_eq_getElem hlt)⟩

/-! ### Rows -/

variable [DecidableEq κ]

theorem Store.place_rows (a : Store κ Row) (k : κ) (row : Row k) (k' : κ) :
    a.rows k' <+: (a.place k row).rows k' := by
  by_cases h : k' = k
  · subst h
    simp [Store.place]
  · simp [Store.place, h]

theorem Store.length_place (a : Store κ Row) (k : κ) (row : Row k) (k' : κ) :
    ((a.place k row).rows k').length = (a.rows k').length + if k' = k then 1 else 0 := by
  by_cases h : k' = k
  · subst h
    simp [Store.place]
  · simp [Store.place, h]

theorem Store.length_complete (a : Store κ Row) (k : κ) (i : Nat) (row : Row k) (k' : κ) :
    ((a.complete k i row).rows k').length = (a.rows k').length := by
  by_cases h : k' = k
  · subst h
    simp [Store.complete]
  · simp [Store.complete, h]

theorem Store.row_complete (a : Store κ Row) (k : κ) (i : Nat) (row : Row k)
    (h : i < (a.rows k).length) : (a.complete k i row).row (k, i) = some row := by
  simp [Store.complete, Store.row, h]

theorem Store.row_complete_ne (a : Store κ Row) (k : κ) (i : Nat) (row : Row k) {x : Address κ}
    (h : x ≠ (k, i)) : (a.complete k i row).row x = a.row x := by
  obtain ⟨k', j⟩ := x
  by_cases hk : k' = k
  · subst hk
    have hne : i ≠ j := by
      rintro rfl
      exact h rfl
    simp [Store.complete, Store.row, hne]
  · simp [Store.complete, Store.row, hk]

theorem Places.leaf (a : Store κ Row) (k : κ) (row : Row k) :
    Places a (a.place k row) [(k, (a.rows k).length)]
      fun c => c.row (k, (a.rows k).length) = some row where
  adds :=
    { rows := a.place_rows k row
      refs := fun _ => prefix_refl _
      mem := by
        intro k' i
        rw [a.length_place, mem_singleton, Prod.mk.injEq]
        split
        · rename_i h
          subst h
          simp only [true_and]
          omega
        · rename_i h
          simp only [h, false_and, false_iff]
          omega
      nodup := nodup_singleton _ }
  holds c hc := by
    rw [hc.rows _ (mem_singleton_self _)]
    simp [Store.row, Store.place]

theorem Places.node {blank : Row k} (h : Places (a.place k blank) b new P) (row : Row k) :
    Places a (b.complete k (a.rows k).length row) ((k, (a.rows k).length) :: new)
      fun c => c.row (k, (a.rows k).length) = some row ∧ P c := by
  have hlength : (a.rows k).length < (b.rows k).length := by
    have hle := h.adds.length_le k
    rw [a.length_place, if_pos rfl] at hle
    omega
  have hfresh : (k, (a.rows k).length) ∉ new := by
    intro hmem
    have hle := ((h.adds.mem _ _).mp hmem).1
    rw [a.length_place, if_pos rfl] at hle
    omega
  constructor
  · constructor
    · intro k'
      have hprefix := (a.place_rows k blank k').trans (h.adds.rows k')
      by_cases hk : k' = k
      · -- The row that is set is not one of those that were there before.
        subst hk
        obtain ⟨rest, hrest⟩ := hprefix
        have hset : (b.rows k').set (a.rows k').length row =
            a.rows k' ++ rest.set 0 row := by
          rw [← hrest, set_append_right _ _ (Nat.le_refl _), Nat.sub_self]
        simp [Store.complete, hset]
      · simpa [Store.complete, hk] using hprefix
    · exact h.adds.refs
    · intro k' i
      rw [mem_cons, h.adds.mem, b.length_complete, a.length_place, Prod.mk.injEq]
      have hle := h.adds.length_le k'
      rw [a.length_place] at hle
      by_cases hk : k' = k
      · subst hk
        simp only [if_true, true_and] at hle ⊢
        omega
      · simp only [hk, false_and, false_or, if_false] at hle ⊢
        omega
    · exact nodup_cons.mpr ⟨hfresh, h.adds.nodup⟩
  · intro c hc
    refine ⟨?_, h.holds c ⟨?_, hc.refs⟩⟩
    · rw [hc.rows _ mem_cons_self, b.row_complete k _ row hlength]
    · intro x hx
      have hne : x ≠ (k, (a.rows k).length) := by
        rintro rfl
        exact hfresh hx
      rw [hc.rows x (mem_cons_of_mem _ hx), b.row_complete_ne k _ row hne]

/-! ### References -/

omit [DecidableEq κ] in
theorem Store.contents_range (b : Store κ Row) (k : κ) (indexes : List Nat)
    (h : b.refs k ++ indexes <+: c.refs k) : c.contents k (b.range k indexes) = some indexes := by
  obtain ⟨rest, hrest⟩ := h
  have hle : (b.refs k).length + indexes.length ≤ (c.refs k).length := by
    rw [← hrest]
    simp only [length_append]
    omega
  rw [Store.contents, Store.range, if_pos hle, ← hrest, append_assoc, drop_left,
    take_left]

theorem Store.addRefs_refs (b : Store κ Row) (k : κ) (indexes : List Nat) (k' : κ) :
    b.refs k' <+: (b.addRefs k indexes).refs k' := by
  by_cases h : k' = k
  · subst h
    simp [Store.addRefs]
  · simp [Store.addRefs, h]

theorem Places.addRefs (h : Places a b new P) (k : κ) (indexes : List Nat) :
    Places a (b.addRefs k indexes) new
      fun c => P c ∧ c.contents k (b.range k indexes) = some indexes where
  adds :=
    { rows := h.adds.rows
      refs := fun k' => (h.adds.refs k').trans (b.addRefs_refs k indexes k')
      mem := h.adds.mem
      nodup := h.adds.nodup }
  holds c hc := by
    refine ⟨h.holds c ⟨hc.rows, fun k' => (b.addRefs_refs k indexes k').trans (hc.refs k')⟩, ?_⟩
    apply Store.contents_range
    simpa [Store.addRefs] using hc.refs k

end Places

/-! ## Owners -/

section Owned

variable {edges : (k : κ) → Row k → Edges κ} {c : Store κ Row}
  {rows rows' refs refs' : List (Address κ)}

/-- What the row at an address refers to. -/
def Store.edgesAt (c : Store κ Row) (edges : (k : κ) → Row k → Edges κ) (x : Address κ) :
    List (Address κ) :=
  (c.row x).elim [] fun row => c.targets (edges x.1 row)

/-- Every one of some rows has one owner: another one of them, or somebody outside, who has
    `refs`. The ranges of these rows are in bounds. -/
structure Owned (edges : (k : κ) → Row k → Edges κ) (c : Store κ Row)
    (rows refs : List (Address κ)) : Prop where
  inRange : ∀ x ∈ rows, ∀ row, c.row x = some row → c.InRange (edges x.1 row)
  perm : (rows.flatMap (c.edgesAt edges) ++ refs).Perm rows

theorem Owned.nil : Owned edges c [] [] := ⟨by simp, by simp⟩

theorem Owned.append (h : Owned edges c rows refs) (h' : Owned edges c rows' refs') :
    Owned edges c (rows ++ rows') (refs ++ refs') where
  inRange x hx := by
    rcases mem_append.mp hx with hx | hx
    · exact h.inRange x hx
    · exact h'.inRange x hx
  perm := by
    rw [flatMap_append]
    refine List.Perm.trans ?_ (h.perm.append h'.perm)
    simp only [append_assoc]
    apply List.Perm.append_left
    rw [← append_assoc, ← append_assoc]
    exact perm_append_comm.append_right _

theorem Owned.node {k : κ} {i : Nat} {row : Row k} (hrow : c.row (k, i) = some row)
    (hrange : c.InRange (edges k row)) (h : Owned edges c rows (c.targets (edges k row))) :
    Owned edges c ((k, i) :: rows) [(k, i)] where
  inRange x hx row' hrow' := by
    rcases mem_cons.mp hx with rfl | hx
    · rw [hrow] at hrow'
      obtain rfl := Option.some.inj hrow'
      exact hrange
    · exact h.inRange x hx row' hrow'
  perm := by
    have hedges : c.edgesAt edges (k, i) = c.targets (edges k row) := by
      simp [Store.edgesAt, hrow]
    rw [flatMap_cons, hedges]
    have hperm := (perm_append_comm.trans h.perm).append_right [(k, i)]
    exact hperm.trans (perm_append_singleton _ _)

theorem Owned.mem_of_edge (h : Owned edges c rows refs) {x y : Address κ} (hx : x ∈ rows)
    (hy : y ∈ c.edgesAt edges x) : y ∈ rows :=
  h.perm.subset (mem_append_left _ (mem_flatMap.mpr ⟨x, hx, hy⟩))

theorem Owned.mem_of_ref (h : Owned edges c rows refs) {y : Address κ} (hy : y ∈ refs) :
    y ∈ rows :=
  h.perm.subset (mem_append_right _ hy)

end Owned

end Tables
