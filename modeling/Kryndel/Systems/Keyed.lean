import Mathlib.Data.List.Basic
import Mathlib.Data.List.Induction

/-!
# Tables keyed by a partial equivalence

A table is a list of entries, whose keys are compared by a test that is symmetric and
transitive; a key need not be the same as itself. What a table holds after some insertions and
removals can be read off these events: an entry is born by an insertion of a key that is not
there, it lives until its key is removed, and its value is the one that was inserted last.
-/

namespace Keyed

open List Option

variable {κ α : Type}

/-- A test that is symmetric and transitive. -/
structure PartialEquivalence (same : κ → κ → Bool) : Prop where
  comm : ∀ a b, same a b = same b a
  trans : ∀ a b c, same a b = true → same b c = true → same a c = true

theorem PartialEquivalence.congr {same : κ → κ → Bool} (h : PartialEquivalence same) {a b : κ}
    (hab : same a b = true) (c : κ) : same a c = same b c := by
  rw [Bool.eq_iff_iff]
  constructor
  · intro hac
    rw [h.comm] at hab
    exact h.trans b a c hab hac
  · intro hbc
    exact h.trans a b c hab hbc

/-! ## Operations -/

section Operations

variable (same : κ → κ → Bool)

/-- Inserts a value under a key. An entry with the key keeps its place and its key. -/
def put (table : List (κ × α)) (k : κ) (v : α) : List (κ × α) :=
  if table.any fun e => same e.1 k then
    table.map fun e => if same e.1 k then (e.1, v) else e
  else table ++ [(k, v)]

/-- Removes a key. -/
def erase (table : List (κ × α)) (k : κ) : List (κ × α) :=
  table.filter fun e => !same e.1 k

/-- The value under a key. -/
def find (table : List (κ × α)) (k : κ) : Option α :=
  (table.find? fun e => same e.1 k).map (·.2)

/-- The keys of a table are distinct. -/
def Distinct (table : List (κ × α)) : Prop :=
  (table.map (·.1)).Pairwise fun a b => same a b = false

instance (table : List (κ × α)) : Decidable (Distinct same table) :=
  inferInstanceAs (Decidable (List.Pairwise _ _))

end Operations

/-! ## Events -/

/-- What can happen to a table. -/
inductive Event (κ α : Type) where
  | insert (k : κ) (v : α)
  | remove (k : κ)
deriving Repr

section Events

variable (same : κ → κ → Bool)

/-- What an event leaves under a key. -/
def Event.effect (k : κ) (found : Option α) : Event κ α → Option α
  | .insert k' v => if same k' k then some v else found
  | .remove k' => if same k' k then none else found

/-- What is under a key after some events. -/
def valueAfter (k : κ) (found : Option α) (events : List (Event κ α)) : Option α :=
  events.foldl (Event.effect same k) found

/-- The value that was inserted last under a key, unless the key was removed since. -/
def lastInserted (events : List (Event κ α)) (k : κ) : Option α :=
  valueAfter same k none events

/-- A key is not removed. -/
def survives (k : κ) (events : List (Event κ α)) : Bool :=
  events.all fun
    | .insert _ _ => true
    | .remove k' => !same k' k

/-- The entries that are born by the later ones of some events, in the order of their births. -/
def entriesFrom (before : List (Event κ α)) : List (Event κ α) → List (κ × α)
  | [] => []
  | .insert k v :: rest =>
    if (lastInserted same before k).isNone && survives same k rest then
      (k, (valueAfter same k (some v) rest).getD v) ::
        entriesFrom (before ++ [.insert k v]) rest
    else entriesFrom (before ++ [.insert k v]) rest
  | .remove k :: rest => entriesFrom (before ++ [.remove k]) rest

/-- The entries that some events leave, in the order of their births. -/
def entriesOf (events : List (Event κ α)) : List (κ × α) :=
  entriesFrom same [] events

/-- What an event does to a table. -/
def Event.apply (table : List (κ × α)) : Event κ α → List (κ × α)
  | .insert k v => put same table k v
  | .remove k => erase same table k

/-- The table after some events. -/
def replay (events : List (Event κ α)) : List (κ × α) :=
  events.foldl (Event.apply same) []

end Events

section Laws

variable {same : κ → κ → Bool}

/-! ## One more event -/

theorem valueAfter_snoc (k : κ) (found : Option α) (events : List (Event κ α)) (e : Event κ α) :
    valueAfter same k found (events ++ [e]) =
      e.effect same k (valueAfter same k found events) := by
  rw [valueAfter, foldl_append]
  rfl

theorem valueAfter_cons (k : κ) (found : Option α) (e : Event κ α) (events : List (Event κ α)) :
    valueAfter same k found (e :: events) = valueAfter same k (e.effect same k found) events :=
  rfl

theorem survives_snoc (k : κ) (events : List (Event κ α)) (e : Event κ α) :
    survives same k (events ++ [e]) = (survives same k events && survives same k [e]) := by
  simp [survives]

variable {k : κ}

theorem valueAfter_of_survives {events : List (Event κ α)} (h : survives same k events = true)
    (v : α) :
    ∃ v', valueAfter same k (some v) events = some v' := by
  induction events generalizing v with
  | nil => exact ⟨v, rfl⟩
  | cons e events ih =>
    rw [survives, all_cons, Bool.and_eq_true] at h
    cases e with
    | insert k' v' =>
      rw [valueAfter_cons, Event.effect]
      split
      · exact ih h.2 v'
      · exact ih h.2 v
    | remove k' =>
      rw [valueAfter_cons, Event.effect, if_neg (by simpa using h.1)]
      exact ih h.2 v

theorem entriesFrom_insert (hsame : PartialEquivalence same) (before events : List (Event κ α))
    (k : κ) (v : α) :
    entriesFrom same before (events ++ [.insert k v]) =
      ((entriesFrom same before events).map fun e => if same e.1 k then (e.1, v) else e) ++
        if (lastInserted same (before ++ events) k).isNone then [(k, v)] else [] := by
  induction events generalizing before with
  | nil =>
    rw [append_nil]
    simp [entriesFrom, survives, valueAfter]
  | cons e events ih =>
    cases e with
    | insert k' v' =>
      have hsurvives : survives same k' (events ++ [.insert k v]) = survives same k' events := by
        rw [survives_snoc]
        exact Bool.and_true _
      rw [cons_append, entriesFrom, entriesFrom, hsurvives, ih, append_assoc,
        singleton_append]
      by_cases hborn : ((lastInserted same before k').isNone && survives same k' events) = true
      · obtain ⟨w, hw⟩ := valueAfter_of_survives (Bool.and_eq_true_iff.mp hborn).2 v'
        rw [if_pos hborn, if_pos hborn, map_cons, cons_append, valueAfter_snoc, hw,
          Event.effect, hsame.comm k k']
        by_cases hk : same k' k = true
        · rw [if_pos hk, if_pos hk]
          rfl
        · rw [if_neg hk, if_neg hk]
      · rw [if_neg hborn, if_neg hborn]
    | remove k' =>
      rw [cons_append, entriesFrom, entriesFrom, ih, append_assoc,
        singleton_append]

theorem entriesFrom_remove (hsame : PartialEquivalence same) (before events : List (Event κ α))
    (k : κ) :
    entriesFrom same before (events ++ [.remove k]) =
      (entriesFrom same before events).filter fun e => !same e.1 k := by
  induction events generalizing before with
  | nil => rfl
  | cons e events ih =>
    cases e with
    | insert k' v' =>
      have hsurvives : survives same k' (events ++ [.remove k]) =
          (survives same k' events && !same k' k) := by
        rw [survives_snoc, hsame.comm k' k]
        simp [survives]
      rw [cons_append, entriesFrom, entriesFrom, hsurvives, ih]
      by_cases hborn : ((lastInserted same before k').isNone && survives same k' events) = true
      · rw [if_pos hborn]
        by_cases hk : same k' k = true
        · rw [hk, Bool.not_true, Bool.and_false, Bool.and_false, if_neg (by simp),
            filter_cons_of_neg (by simp [hk])]
        · rw [Bool.not_eq_true] at hk
          rw [hk, Bool.not_false, Bool.and_true, if_pos hborn,
            filter_cons_of_pos (by simp [hk]), valueAfter_snoc, Event.effect,
            hsame.comm k k', hk, if_neg Bool.false_ne_true]
      · rw [if_neg hborn, ← Bool.and_assoc, Bool.eq_false_iff.mpr hborn, Bool.false_and,
          if_neg Bool.false_ne_true]
    | remove k' => rw [cons_append, entriesFrom, entriesFrom, ih]

/-! ## Lookups -/

theorem find_cons (e : κ × α) (table : List (κ × α)) (q : κ) :
    find same (e :: table) q = if same e.1 q then some e.2 else find same table q := by
  rw [find, find?_cons]
  cases same e.1 q with
  | true => rfl
  | false => rfl

theorem find_append (table table' : List (κ × α)) (q : κ) :
    find same (table ++ table') q = (find same table q).or (find same table' q) := by
  rw [find, find?_append, map_or]
  rfl

theorem find_isSome (table : List (κ × α)) (k : κ) :
    (find same table k).isSome = table.any fun e => same e.1 k := by
  rw [find, isSome_map, isSome_find?]

theorem find_congr (hsame : PartialEquivalence same) (table : List (κ × α)) {k q : κ}
    (h : same k q = true) : find same table k = find same table q := by
  have hkeys : (fun e : κ × α => same e.1 k) = fun e => same e.1 q := by
    funext e
    rw [hsame.comm e.1 k, hsame.congr h, hsame.comm]
  rw [find, find, hkeys]

theorem find_replace (hsame : PartialEquivalence same) (table : List (κ × α)) (k q : κ) (v : α) :
    find same (table.map fun e => if same e.1 k then (e.1, v) else e) q =
      if same k q then (find same table q).map fun _ => v else find same table q := by
  induction table with
  | nil => cases same k q <;> rfl
  | cons e table ih =>
    rw [map_cons, find_cons, find_cons, ih]
    by_cases hek : same e.1 k = true
    · rw [if_pos hek, hsame.congr hek q]
      by_cases hkq : same k q = true
      · rw [if_pos hkq, if_pos hkq, if_pos hkq]
        rfl
      · rw [if_neg hkq, if_neg hkq, if_neg hkq, if_neg hkq]
    · rw [if_neg hek]
      by_cases heq : same e.1 q = true
      · -- A key that is the same as `q` is not the same as `k`, so `k` is not the same as `q`.
        have hkq : ¬ same k q = true := by
          intro hkq
          rw [hsame.comm] at hkq
          exact hek (hsame.trans _ _ _ heq hkq)
        rw [if_pos heq, if_pos heq, if_neg hkq]
      · rw [if_neg heq, if_neg heq]

variable {table : List (κ × α)}

theorem replace_absent (h : find same table k = none) (v : α) :
    (table.map fun e => if same e.1 k then (e.1, v) else e) = table := by
  have hnone : ∀ e ∈ table, ¬ same e.1 k = true := by
    intro e he hek
    have hany : (table.any fun e => same e.1 k) = true := any_eq_true.mpr ⟨e, he, hek⟩
    rw [← find_isSome, h] at hany
    cases hany
  exact (List.map_congr_left fun e he => if_neg (hnone e he)).trans (map_id _)

theorem find_put (hsame : PartialEquivalence same) (table : List (κ × α)) (k q : κ) (v : α) :
    find same (put same table k v) q = if same k q then some v else find same table q := by
  rw [put, ← find_isSome]
  cases hfind : find same table k with
  | some w =>
    rw [isSome_some, if_pos rfl, find_replace hsame]
    by_cases hkq : same k q = true
    · rw [if_pos hkq, if_pos hkq, ← find_congr hsame table hkq, hfind]
      rfl
    · rw [if_neg hkq, if_neg hkq]
  | none =>
    rw [isSome_none, if_neg Bool.false_ne_true, find_append, find_cons]
    by_cases hkq : same k q = true
    · rw [if_pos hkq, if_pos hkq, ← find_congr hsame table hkq, hfind]
      rfl
    · rw [if_neg hkq, if_neg hkq]
      exact or_none

theorem find_erase (hsame : PartialEquivalence same) (table : List (κ × α)) (k q : κ) :
    find same (erase same table k) q = if same k q then none else find same table q := by
  induction table with
  | nil => cases same k q <;> rfl
  | cons e table ih =>
    rw [find_cons, erase]
    by_cases hek : same e.1 k = true
    · rw [filter_cons_of_neg (by simp [hek]), hsame.congr hek q]
      refine ih.trans ?_
      by_cases hkq : same k q = true
      · rw [if_pos hkq, if_pos hkq]
      · rw [if_neg hkq, if_neg hkq, if_neg hkq]
    · rw [filter_cons_of_pos (by simp [hek]), find_cons]
      by_cases heq : same e.1 q = true
      · have hkq : ¬ same k q = true := by
          intro hkq
          rw [hsame.comm] at hkq
          exact hek (hsame.trans _ _ _ heq hkq)
        rw [if_pos heq, if_neg hkq, if_pos heq]
      · rw [if_neg heq, if_neg heq]
        exact ih

/-! ## Distinct keys -/

theorem keys_replace (table : List (κ × α)) (k : κ) (v : α) :
    (table.map fun e => if same e.1 k then (e.1, v) else e).map (·.1) = table.map (·.1) := by
  rw [List.map_map]
  apply List.map_congr_left
  intro e _
  rw [Function.comp_apply]
  split
  · rfl
  · rfl

theorem Distinct.put (h : Distinct same table) (k : κ) (v : α) :
    Distinct same (put same table k v) := by
  rw [Keyed.put]
  split
  · rw [Distinct, keys_replace]
    exact h
  · rename_i hany
    rw [Bool.not_eq_true, List.any_eq_false] at hany
    rw [Distinct, List.map_append, List.pairwise_append]
    refine ⟨h, pairwise_singleton _ _, ?_⟩
    intro a ha b hb
    obtain ⟨e, he, rfl⟩ := mem_map.mp ha
    obtain rfl := mem_singleton.mp hb
    simpa using hany e he

theorem Distinct.erase (h : Distinct same table) (k : κ) :
    Distinct same (erase same table k) :=
  h.sublist (filter_sublist.map _)

theorem distinct_snoc {v : α} (h : Distinct same table)
    (hk : (table.any fun e => same e.1 k) = false) : Distinct same (table ++ [(k, v)]) := by
  have hput := h.put k v
  rwa [Keyed.put, hk, if_neg Bool.false_ne_true] at hput

theorem not_distinct {table rest : List (κ × α)} {v : α}
    (hk : (table.any fun e => same e.1 k) = true) :
    ¬ Distinct same (table ++ (k, v) :: rest) := by
  obtain ⟨e, he, hek⟩ := any_eq_true.mp hk
  intro h
  rw [Distinct, List.map_append, map_cons, List.pairwise_append] at h
  have hfalse := h.2.2 e.1 (mem_map_of_mem he) k mem_cons_self
  rw [hek] at hfalse
  cases hfalse

theorem insert_all {table entries : List (κ × α)} (h : Distinct same (table ++ entries)) :
    (entries.map fun e => Event.insert e.1 e.2).foldl (Event.apply same) table =
      table ++ entries := by
  induction entries generalizing table with
  | nil => rw [append_nil]; rfl
  | cons e entries ih =>
    obtain ⟨k, v⟩ := e
    have hk : (table.any fun e => same e.1 k) = false := by
      rw [Bool.eq_false_iff]
      intro hk
      exact not_distinct hk h
    rw [append_cons] at h ⊢
    rw [← ih h, map_cons, foldl_cons, Event.apply, Keyed.put, hk,
      if_neg Bool.false_ne_true]

/-! ## Replay -/

theorem replay_snoc (events : List (Event κ α)) (e : Event κ α) :
    replay same (events ++ [e]) = e.apply same (replay same events) := by
  rw [replay, foldl_append]
  rfl

theorem lastInserted_snoc (events : List (Event κ α)) (e : Event κ α) (k : κ) :
    lastInserted same (events ++ [e]) k = e.effect same k (lastInserted same events k) :=
  valueAfter_snoc k none events e

theorem find_replay (hsame : PartialEquivalence same) (events : List (Event κ α)) (k : κ) :
    find same (replay same events) k = lastInserted same events k := by
  induction events using List.reverseRecOn with
  | nil => rfl
  | append_singleton events e ih =>
    rw [replay_snoc, lastInserted_snoc, ← ih]
    cases e with
    | insert k' v => exact find_put hsame _ k' k v
    | remove k' => exact find_erase hsame _ k' k

theorem distinct_replay (events : List (Event κ α)) : Distinct same (replay same events) := by
  induction events using List.reverseRecOn with
  | nil => exact List.Pairwise.nil
  | append_singleton events e ih =>
    rw [replay_snoc]
    cases e with
    | insert k v => exact ih.put k v
    | remove k => exact ih.erase k

theorem replay_eq (hsame : PartialEquivalence same) (events : List (Event κ α)) :
    replay same events = entriesOf same events := by
  induction events using List.reverseRecOn with
  | nil => rfl
  | append_singleton events e ih =>
    rw [replay_snoc, entriesOf]
    cases e with
    | insert k v =>
      rw [entriesFrom_insert hsame, nil_append, ← find_replay hsame, Event.apply, put,
        ← find_isSome]
      rw [← entriesOf, ← ih]
      cases hfind : find same (replay same events) k with
      | some w => simp
      | none =>
        rw [replace_absent hfind]
        rfl
    | remove k =>
      rw [entriesFrom_remove hsame, Event.apply, ih]
      rfl

theorem entriesOf_insert_again (hsame : PartialEquivalence same) (events : List (Event κ α))
    (k : κ) (v : α) (h : (lastInserted same events k).isSome = true) :
    entriesOf same (events ++ [.insert k v]) =
      (entriesOf same events).map fun e => if same e.1 k then (e.1, v) else e := by
  rw [entriesOf, entriesFrom_insert hsame, nil_append, isNone_eq_false_iff.mpr h,
    if_neg Bool.false_ne_true, append_nil]
  rfl

theorem entriesOf_reinsert (hsame : PartialEquivalence same) (events : List (Event κ α)) (k : κ)
    (v : α) :
    entriesOf same (events ++ [.remove k, .insert k v]) =
      ((entriesOf same events).filter fun e => !same e.1 k) ++ [(k, v)] := by
  have habsent : find same (replay same (events ++ [.remove k])) k = none := by
    rw [← not_isSome_iff_eq_none, replay_snoc, find_isSome]
    intro hany
    obtain ⟨e, he, hek⟩ := any_eq_true.mp hany
    have hnot := (mem_filter.mp he).2
    rw [hek] at hnot
    cases hnot
  have hsplit : events ++ [.remove k, .insert k v] = (events ++ [.remove k]) ++ [.insert k v] := by
    simp
  rw [hsplit, entriesOf, entriesFrom_insert hsame, nil_append, ← find_replay hsame, habsent,
    ← entriesOf, ← replay_eq hsame, replace_absent habsent, replay_eq hsame, entriesOf,
    entriesFrom_remove hsame]
  rfl

end Laws

end Keyed
