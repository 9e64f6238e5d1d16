import Kryndel.Values.Equality
import Kryndel.Persistent.Versions
import Kryndel.Systems.Keyed

/-!
# Maps and sets

A map is a slice of entries and a set is a slice of values. No operation writes to a slice that
another value can have: an insertion and a removal build a new one. So the versions of a
collection that a program has made stay what they are, and each of them is described by its
history, the insertions and removals that lead to it.
-/

namespace Kryndel

open Keyed List Option

/-! ## The operations -/

/-- `MapEntry` -/
abbrev MapEntry := Value × Value

section Code

variable [FloatArith]

/-- The elements that a loop over a slice goes through. -/
def readSlice {α : Type} (s : Slice) : MemoryM α (List α) := fun m =>
  (m.elements s).map fun values => (values, m)

/-- The loop of a map literal, over the entries that are evaluated. -/
def mapLiteralLoop (lim : Limits) (m : Slice) :
    List MapEntry → MemoryM MapEntry (Except String Slice)
  | [] =>
    if (m.length : Int) * 48 > lim.maxMemoryBytes then
      pure (.error "map allocation exceeds memory budget")
    else pure (.ok m)
  | (key, value) :: rest => do
    let olds ← readSlice m
    if olds.any fun old => equalValue old.1 key then pure (.error "duplicate map key")
    else mapLiteralLoop lim (← appendElement m (key, value)) rest

/-- A map literal. -/
def mapLiteral (lim : Limits) (entries : List MapEntry) :
    MemoryM MapEntry (Except String Slice) := do
  mapLiteralLoop lim (← newSlice []) entries

/-- The loop of `map_insert`, which copies the entries. -/
def mapInsertLoop (m : Slice) (key value : Value) :
    Nat → List MapEntry → Bool → MemoryM MapEntry Bool
  | _, [], found => pure found
  | i, x :: rest, found => do
    assignElement m i x
    if equalValue x.1 key then
      assignElement m i (x.1, value)
      mapInsertLoop m key value (i + 1) rest true
    else mapInsertLoop m key value (i + 1) rest found

/-- `map_insert` -/
def mapInsert (lim : Limits) (s : Slice) (key value : Value) :
    MemoryM MapEntry (Except String Slice) := do
  let entries ← readSlice s
  let m ← newSlice (List.replicate entries.length (.nil, .nil))
  let found ← mapInsertLoop m key value 0 entries false
  if found then pure (.ok m)
  else if m.length ≥ lim.maxArrayElements then pure (.error "map size limit exceeded")
  else .ok <$> appendElement m (key, value)

/-- The loop of `map_remove` and of `set_remove`. -/
def removeLoop {α : Type} (drop : α → Bool) (out : Slice) : List α → MemoryM α Slice
  | [] => pure out
  | x :: rest => do
    if drop x then removeLoop drop out rest
    else removeLoop drop (← appendElement out x) rest

/-- `map_remove` -/
def mapRemove (s : Slice) (key : Value) : MemoryM MapEntry (Except String Slice) := do
  let entries ← readSlice s
  .ok <$> removeLoop (fun x => equalValue x.1 key) (← newSlice []) entries

/-- `map_get` -/
def mapGet (m : Memory MapEntry) (s : Slice) (key : Value) : Option Value :=
  (m.elements s).map fun entries =>
    match entries.find? fun x => equalValue x.1 key with
    | some x => .present x.2
    | none => .absent

/-- `map_contains_key` -/
def mapContainsKey (m : Memory MapEntry) (s : Slice) (key : Value) : Option Bool :=
  (m.elements s).map fun entries => entries.any fun x => equalValue x.1 key

/-- `map_keys` -/
def mapKeys (m : Memory MapEntry) (s : Slice) : Option (List Value) :=
  (m.elements s).map fun entries => entries.map (·.1)

/-- `map_values` -/
def mapValues (m : Memory MapEntry) (s : Slice) : Option (List Value) :=
  (m.elements s).map fun entries => entries.map (·.2)

/-- The loop of a set literal, over the items that are evaluated. -/
def setLiteralLoop (s : Slice) : List Value → MemoryM Value Slice
  | [] => pure s
  | item :: rest => do
    let olds ← readSlice s
    if olds.any fun old => equalValue old item then setLiteralLoop s rest
    else setLiteralLoop (← appendElement s item) rest

/-- A set literal. -/
def setLiteral (items : List Value) : MemoryM Value (Except String Slice) := do
  .ok <$> setLiteralLoop (← newSlice []) items

/-- `set_insert` -/
def setInsert (lim : Limits) (s : Slice) (item : Value) :
    MemoryM Value (Except String Slice) := do
  let items ← readSlice s
  if items.any fun x => equalValue x item then pure (.ok s)
  else if s.length ≥ lim.maxArrayElements then pure (.error "set size limit exceeded")
  else .ok <$> appendElement s item

/-- `set_remove` -/
def setRemove (s : Slice) (item : Value) : MemoryM Value (Except String Slice) := do
  let items ← readSlice s
  .ok <$> removeLoop (fun x => equalValue x item) (← newSlice []) items

/-- `set_contains` -/
def setContains (m : Memory Value) (s : Slice) (item : Value) : Option Bool :=
  (m.elements s).map fun items => items.any fun x => equalValue x item

/-- `set_len` -/
def setLen (s : Slice) : Nat := s.length

/-- `set_to_array` -/
def setToArray (m : Memory Value) (s : Slice) : Option (List Value) := m.elements s

end Code

/-! ## What they build -/

section Build

variable {α : Type} {m : Memory α}

/-- A run that builds a slice of some elements. -/
def BuildsSlice (m : Memory α) (run : Option (Except String Slice × Memory α)) (xs : List α) :
    Prop :=
  ∃ s m', run = some (.ok s, m') ∧ m.AddsCells m' ∧ m'.elements s = some xs

/-- A run that ends in a diagnostic. -/
def ReportsError (m : Memory α) (run : Option (Except String Slice × Memory α)) (text : String) :
    Prop :=
  ∃ m', run = some (.error text, m') ∧ m.AddsCells m'

variable {xs : List α} {s : Slice}

theorem readSlice_run (h : m.elements s = some xs) :
    readSlice s m = some (xs, m) := by
  rw [readSlice, h]
  rfl

theorem BuildsSlice.of_adds {m₀ : Memory α} {run : Option (Except String Slice × Memory α)}
    (hadds : m₀.AddsCells m) (h : BuildsSlice m run xs) : BuildsSlice m₀ run xs := by
  obtain ⟨s, m', hrun, hadds', hs⟩ := h
  exact ⟨s, m', hrun, hadds.trans hadds', hs⟩

theorem appendElement_builds (h : m.elements s = some xs) (x : α) :
    BuildsSlice m ((.ok <$> appendElement s x : MemoryM α (Except String Slice)) m) (xs ++ [x]) :=
  ⟨_, _, run_map (appendElement_run h x), m.addArray_adds _, m.elements_fresh _ rfl⟩

theorem removeLoop_run (drop : α → Bool) {out : Slice} {kept : List α}
    (hout : m.elements out = some kept) (xs : List α) :
    ∃ s m', removeLoop drop out xs m = some (s, m') ∧ m.AddsCells m' ∧
      m'.elements s = some (kept ++ xs.filter fun x => !drop x) := by
  induction xs generalizing m out kept with
  | nil =>
    rw [filter_nil, append_nil]
    exact ⟨out, m, rfl, Memory.AddsCells.refl m, hout⟩
  | cons x xs ih =>
    rw [removeLoop]
    by_cases hdrop : drop x = true
    · rw [if_pos hdrop, filter_cons_of_neg (by simp [hdrop])]
      exact ih hout
    · rw [if_neg hdrop, filter_cons_of_pos (by simp [hdrop])]
      obtain ⟨s, m', hrun, hadds, hs⟩ :=
        ih (m := m.addArray (kept ++ [x])) (m.elements_fresh (kept ++ [x]) rfl)
      refine ⟨s, m', (run_bind (appendElement_run hout x)).trans hrun,
        (m.addArray_adds _).trans hadds, ?_⟩
      rw [hs, append_assoc, singleton_append]

theorem remove_builds (drop : α → Bool) (h : m.elements s = some xs) :
    BuildsSlice m ((do
      let items ← readSlice s
      .ok <$> removeLoop drop (← newSlice []) items : MemoryM α (Except String Slice)) m)
      (xs.filter fun x => !drop x) := by
  obtain ⟨out, m', hrun, hadds, hout⟩ :=
    removeLoop_run (m := m.addArray []) drop (m.elements_fresh [] rfl) xs
  refine ⟨out, m', ?_, (m.addArray_adds []).trans hadds, hout⟩
  exact (run_bind (readSlice_run h)).trans ((run_bind (newSlice_run m [])).trans (run_map hrun))

theorem assignElement_part (m : Memory α) (done : List α) (old x : α) (rest : List α)
    (hs : s = m.freshSlice (done ++ old :: rest)) :
    assignElement s done.length x (m.addArray (done ++ old :: rest)) =
      some ((), m.addArray (done ++ x :: rest)) := by
  rw [hs, assignElement_run m _ (by simp) x]
  simp

theorem freshSlice_congr (m : Memory α) {xs ys : List α} (h : xs.length = ys.length) :
    m.freshSlice xs = m.freshSlice ys := by
  rw [Memory.freshSlice, Memory.freshSlice, h]

end Build

section Maps

variable [FloatArith]

variable {s : Slice}

theorem mapInsertLoop_run (m : Memory MapEntry) (key value : Value) (done blank xs : List MapEntry)
    (hblank : blank.length = xs.length) (found : Bool) (hs : s = m.freshSlice (done ++ blank)) :
    mapInsertLoop s key value done.length xs found (m.addArray (done ++ blank)) =
      some (found || xs.any fun x => equalValue x.1 key, m.addArray (done ++
        xs.map fun x => if equalValue x.1 key then (x.1, value) else x)) := by
  induction xs generalizing done blank found with
  | nil =>
    rw [length_eq_zero_iff.mp hblank, any_nil, Bool.or_false]
    rfl
  | cons x xs ih =>
    cases blank with
    | nil => cases hblank
    | cons old blank =>
      have hrest := Nat.succ.inj hblank
      have hplace (y : MapEntry) : s = m.freshSlice (done ++ [y] ++ blank) := by
        rw [hs]
        exact freshSlice_congr m (by simp)
      have hnext (y : MapEntry) : done.length + 1 = (done ++ [y]).length := by simp
      refine (run_bind (assignElement_part m done old x blank hs)).trans ?_
      rw [any_cons, map_cons]
      by_cases hx : equalValue x.1 key = true
      · have hs' : s = m.freshSlice (done ++ x :: blank) := by
          rw [hs]
          exact freshSlice_congr m (by simp)
        rw [if_pos hx]
        refine (run_bind (assignElement_part m done x (x.1, value) blank hs')).trans ?_
        rw [hnext (x.1, value), append_cons done (x.1, value) blank,
          ih (done ++ [(x.1, value)]) blank hrest true (hplace _), hx, if_pos rfl]
        simp
      · rw [if_neg hx, hnext x, append_cons done x blank,
          ih (done ++ [x]) blank hrest found (hplace x), if_neg hx]
        simp [hx]

theorem mapInsert_run (lim : Limits) {m : Memory MapEntry} {xs : List MapEntry}
    (h : m.elements s = some xs) (key value : Value) :
    if (find equalValue xs key).isNone ∧ lim.maxArrayElements ≤ xs.length then
      ReportsError m (mapInsert lim s key value m) "map size limit exceeded"
    else BuildsSlice m (mapInsert lim s key value m) (put equalValue xs key value) := by
  let blank : List MapEntry := List.replicate xs.length (.nil, .nil)
  let copied := xs.map fun x => if equalValue x.1 key then (x.1, value) else x
  have hslice : m.freshSlice blank = m.freshSlice copied :=
    freshSlice_congr m (by simp [blank, copied])
  have hcopied : (m.addArray copied).elements (m.freshSlice blank) = some copied :=
    m.elements_fresh copied hslice
  have hloop := mapInsertLoop_run m key value [] blank xs length_replicate false rfl
  have hrun : mapInsert lim s key value m = _ := (run_bind (readSlice_run h)).trans
    ((run_bind (newSlice_run m blank)).trans (run_bind hloop))
  rw [hrun, Bool.false_or, nil_append, ← find_isSome]
  cases hfind : find equalValue xs key with
  | some old =>
    have hput : put equalValue xs key value = copied := by
      rw [put, ← find_isSome, hfind, isSome_some, if_pos rfl]
    rw [isSome_some, if_pos rfl, if_neg (by simp), hput]
    exact ⟨_, _, rfl, m.addArray_adds copied, hcopied⟩
  | none =>
    have hkeep : copied = xs := replace_absent hfind value
    have hput : put equalValue xs key value = copied ++ [(key, value)] := by
      rw [put, ← find_isSome, hfind, isSome_none, if_neg Bool.false_ne_true, hkeep]
    have hlength : (m.freshSlice blank).length = xs.length := length_replicate
    rw [isSome_none, if_neg Bool.false_ne_true, hlength]
    by_cases hfull : lim.maxArrayElements ≤ xs.length
    · rw [if_pos ⟨rfl, hfull⟩, if_pos hfull]
      exact ⟨_, rfl, m.addArray_adds copied⟩
    · rw [if_neg (fun h => hfull h.2), if_neg hfull, hput]
      exact (appendElement_builds hcopied (key, value)).of_adds (m.addArray_adds copied)

theorem mapLiteral_run (lim : Limits) (m : Memory MapEntry) (entries : List MapEntry) :
    if ¬ Distinct equalValue entries then
      ReportsError m (mapLiteral lim entries m) "duplicate map key"
    else if lim.maxMemoryBytes < entries.length * 48 then
      ReportsError m (mapLiteral lim entries m) "map allocation exceeds memory budget"
    else BuildsSlice m (mapLiteral lim entries m) entries := by
  have hloop : ∀ (rest : List MapEntry) (m₁ : Memory MapEntry) (s : Slice) (done : List MapEntry),
      m.AddsCells m₁ → m₁.elements s = some done → Distinct equalValue done →
      if ¬ Distinct equalValue (done ++ rest) then
        ReportsError m (mapLiteralLoop lim s rest m₁) "duplicate map key"
      else if lim.maxMemoryBytes < ((done ++ rest).length : Int) * 48 then
        ReportsError m (mapLiteralLoop lim s rest m₁) "map allocation exceeds memory budget"
      else BuildsSlice m (mapLiteralLoop lim s rest m₁) (done ++ rest) := by
    intro rest
    induction rest with
    | nil =>
      intro m₁ s done hadds hs hdone
      rw [append_nil, if_neg (fun h => h hdone), mapLiteralLoop, ← Memory.elements_length hs]
      by_cases hbudget : lim.maxMemoryBytes < (done.length : Int) * 48
      · rw [if_pos hbudget, if_pos hbudget]
        exact ⟨m₁, rfl, hadds⟩
      · rw [if_neg hbudget, if_neg hbudget]
        exact ⟨s, m₁, rfl, hadds, hs⟩
    | cons e rest ih =>
      intro m₁ s done hadds hs hdone
      obtain ⟨key, value⟩ := e
      have hstep := run_bind (f := fun olds => if olds.any fun old => equalValue old.1 key then
        pure (.error "duplicate map key") else do
          mapLiteralLoop lim (← appendElement s (key, value)) rest) (readSlice_run hs)
      rw [show mapLiteralLoop lim s ((key, value) :: rest) m₁ = _ from hstep]
      cases hany : done.any fun old => equalValue old.1 key with
      | true =>
        rw [if_pos rfl, if_pos (not_distinct hany)]
        exact ⟨m₁, rfl, hadds⟩
      | false =>
        rw [if_neg Bool.false_ne_true, run_bind (appendElement_run hs (key, value)),
          append_cons]
        exact ih _ _ _ (hadds.trans (m₁.addArray_adds _)) (m₁.elements_fresh _ rfl)
          (distinct_snoc hdone hany)
  exact hloop entries (m.addArray []) _ [] (m.addArray_adds []) (m.elements_fresh [] rfl)
    List.Pairwise.nil

theorem mapGet_eq {m : Memory MapEntry} {xs : List MapEntry} (hs : m.elements s = some xs)
    (k : Value) :
    mapGet m s k = some (match find equalValue xs k with
      | some value => .present value
      | none => .absent) := by
  rw [mapGet, hs, find, Option.map_some]
  cases List.find? (fun e => equalValue e.1 k) xs with
  | none => rfl
  | some e => rfl

end Maps

/-! ## Sets -/

section Sets

variable [FloatArith]

theorem put_unit (table : List (Value × Unit)) (item : Value) :
    (put equalValue table item ()).map (·.1) =
      if (table.map (·.1)).any fun x => equalValue x item then table.map (·.1)
      else table.map (·.1) ++ [item] := by
  have hany : ((table.map (·.1)).any fun x => equalValue x item) =
      table.any fun e => equalValue e.1 item := List.any_map
  rw [put, hany]
  split
  · exact keys_replace table item ()
  · exact map_append

theorem setInsert_run (lim : Limits) {m : Memory Value} {s : Slice} {table : List (Value × Unit)}
    (h : m.elements s = some (table.map (·.1))) (item : Value) :
    if (find equalValue table item).isNone ∧ lim.maxArrayElements ≤ table.length then
      ReportsError m (setInsert lim s item m) "set size limit exceeded"
    else BuildsSlice m (setInsert lim s item m) ((put equalValue table item ()).map (·.1)) := by
  have hrun : setInsert lim s item m = _ := run_bind (readSlice_run h)
  have hlength : s.length = table.length := by
    rw [← Memory.elements_length h, length_map]
  have hany : ((table.map (·.1)).any fun x => equalValue x item) =
      (find equalValue table item).isSome := by
    rw [find_isSome, List.any_map]
    rfl
  rw [hrun, put_unit, hany, hlength]
  cases hfind : find equalValue table item with
  | some old =>
    exact ⟨s, m, rfl, Memory.AddsCells.refl m, h⟩
  | none =>
    rw [isSome_none, if_neg Bool.false_ne_true, if_neg Bool.false_ne_true]
    by_cases hfull : lim.maxArrayElements ≤ table.length
    · rw [if_pos ⟨rfl, hfull⟩, if_pos hfull]
      exact ⟨m, rfl, Memory.AddsCells.refl m⟩
    · rw [if_neg (fun h => hfull h.2), if_neg hfull]
      exact appendElement_builds h item

theorem setLiteral_run (m : Memory Value) (items : List Value) :
    BuildsSlice m (setLiteral items m)
      ((replay equalValue (items.map fun item => .insert item ())).map (·.1)) := by
  have hloop : ∀ (rest : List Value) (m₁ : Memory Value) (s : Slice) (table : List (Value × Unit)),
      m.AddsCells m₁ → m₁.elements s = some (table.map (·.1)) →
      ∃ s' m', setLiteralLoop s rest m₁ = some (s', m') ∧ m.AddsCells m' ∧
        m'.elements s' =
          some ((rest.foldl (fun t x => put equalValue t x ()) table).map (·.1)) := by
    intro rest
    induction rest with
    | nil =>
      intro m₁ s table hadds hs
      exact ⟨s, m₁, rfl, hadds, hs⟩
    | cons item rest ih =>
      intro m₁ s table hadds hs
      have hstep : setLiteralLoop s (item :: rest) m₁ = _ := run_bind (readSlice_run hs)
      have hput := put_unit table item
      rw [hstep, foldl_cons]
      by_cases hany : ((table.map (·.1)).any fun x => equalValue x item) = true
      · rw [if_pos hany] at hput ⊢
        rw [← hput] at hs
        exact ih m₁ s _ hadds hs
      · rw [if_neg hany] at hput ⊢
        rw [run_bind (appendElement_run hs item), ← hput]
        exact ih _ _ _ (hadds.trans (m₁.addArray_adds _)) (m₁.elements_fresh _ rfl)
  obtain ⟨s, m', hrun, hadds, hs⟩ :=
    hloop items (m.addArray []) _ [] (m.addArray_adds []) (m.elements_fresh [] rfl)
  refine ⟨s, m', (run_bind (newSlice_run m [])).trans (run_map hrun), hadds, ?_⟩
  rw [hs, replay, foldl_map]
  rfl

end Sets

/-! ## Versions and their histories -/

/-- The collections that a program has made, and the diagnostics of the operations that made
    none. -/
structure Collections where
  entries : Memory MapEntry := {}
  items : Memory Value := {}
  maps : List Slice := []
  sets : List Slice := []
  reported : List String := []

/-- What lead to the collections that a program has made. -/
structure Histories where
  maps : List (List (Event Value Value)) := []
  sets : List (List (Event Value Unit)) := []
  reported : List String := []

/-- An operation, on versions that are named by their positions. -/
inductive CollectionOp where
  | mapLiteral (entries : List MapEntry)
  | mapInsert (version : Nat) (key value : Value)
  | mapRemove (version : Nat) (key : Value)
  | setLiteral (items : List Value)
  | setInsert (version : Nat) (item : Value)
  | setRemove (version : Nat) (item : Value)

/-- An operation that makes a map or a diagnostic. -/
def Collections.addMap (c : Collections) (run : MemoryM MapEntry (Except String Slice)) :
    Option Collections :=
  match run c.entries with
  | some (.ok s, m) => some { c with entries := m, maps := c.maps ++ [s] }
  | some (.error text, m) => some { c with entries := m, reported := c.reported ++ [text] }
  | none => none

/-- An operation that makes a set or a diagnostic. -/
def Collections.addSet (c : Collections) (run : MemoryM Value (Except String Slice)) :
    Option Collections :=
  match run c.items with
  | some (.ok s, m) => some { c with items := m, sets := c.sets ++ [s] }
  | some (.error text, m) => some { c with items := m, reported := c.reported ++ [text] }
  | none => none

def Histories.addMap (h : Histories) (events : List (Event Value Value)) : Histories :=
  { h with maps := h.maps ++ [events] }

def Histories.addSet (h : Histories) (events : List (Event Value Unit)) : Histories :=
  { h with sets := h.sets ++ [events] }

def Histories.report (h : Histories) (text : String) : Histories :=
  { h with reported := h.reported ++ [text] }

/-- Collections and histories keep the versions that they have. -/
structure Continues (c c' : Collections) (h h' : Histories) : Prop where
  maps : c.maps <+: c'.maps
  sets : c.sets <+: c'.sets
  mapHistories : h.maps <+: h'.maps
  setHistories : h.sets <+: h'.sets

theorem Continues.refl (c : Collections) (h : Histories) : Continues c c h h :=
  ⟨prefix_refl _, prefix_refl _, prefix_refl _, prefix_refl _⟩

theorem Continues.trans {c c' c'' : Collections} {h h' h'' : Histories}
    (hc : Continues c c' h h') (hc' : Continues c' c'' h' h'') : Continues c c'' h h'' :=
  ⟨hc.maps.trans hc'.maps, hc.sets.trans hc'.sets, hc.mapHistories.trans hc'.mapHistories,
    hc.setHistories.trans hc'.setHistories⟩

theorem forall₂_getElem? {α β : Type} {R : α → β → Prop} {as : List α} {bs : List β}
    (h : List.Forall₂ R as bs) {i : Nat} {b : β} (hb : bs[i]? = some b) :
    ∃ a, as[i]? = some a ∧ R a b := by
  obtain ⟨hlt, rfl⟩ := List.getElem?_eq_some_iff.mp hb
  have hlt' : i < as.length := by rwa [h.length_eq]
  exact ⟨as[i], getElem?_eq_getElem hlt', (forall₂_iff_get.mp h).2 i hlt' hlt⟩

section Runs

variable [FloatArith]

/-- An operation on versions. -/
def CollectionOp.step (lim : Limits) (c : Collections) : CollectionOp → Option Collections
  | .mapLiteral entries => c.addMap (Kryndel.mapLiteral lim entries)
  | .mapInsert version key value => do
    let s ← c.maps[version]?
    c.addMap (Kryndel.mapInsert lim s key value)
  | .mapRemove version key => do
    let s ← c.maps[version]?
    c.addMap (Kryndel.mapRemove s key)
  | .setLiteral items => c.addSet (Kryndel.setLiteral items)
  | .setInsert version item => do
    let s ← c.sets[version]?
    c.addSet (Kryndel.setInsert lim s item)
  | .setRemove version item => do
    let s ← c.sets[version]?
    c.addSet (Kryndel.setRemove s item)

/-- The same operation on histories. -/
def CollectionOp.spec (lim : Limits) (h : Histories) : CollectionOp → Option Histories
  | .mapLiteral entries =>
    some <|
      if ¬ Distinct equalValue entries then h.report "duplicate map key"
      else if lim.maxMemoryBytes < entries.length * 48 then
        h.report "map allocation exceeds memory budget"
      else h.addMap (entries.map fun e => .insert e.1 e.2)
  | .mapInsert version key value => do
    let events ← h.maps[version]?
    return if (lastInserted equalValue events key).isNone ∧
        lim.maxArrayElements ≤ (entriesOf equalValue events).length then
      h.report "map size limit exceeded"
    else h.addMap (events ++ [.insert key value])
  | .mapRemove version key => do
    let events ← h.maps[version]?
    return h.addMap (events ++ [.remove key])
  | .setLiteral items => some (h.addSet (items.map fun item => .insert item ()))
  | .setInsert version item => do
    let events ← h.sets[version]?
    return if (lastInserted equalValue events item).isNone ∧
        lim.maxArrayElements ≤ (entriesOf equalValue events).length then
      h.report "set size limit exceeded"
    else h.addSet (events ++ [.insert item ()])
  | .setRemove version item => do
    let events ← h.sets[version]?
    return h.addSet (events ++ [.remove item])

/-- A sequence of operations on versions. -/
def runCollections (lim : Limits) (ops : List CollectionOp) : Option Collections :=
  ops.foldlM (CollectionOp.step lim) {}

/-- The same sequence on histories. -/
def runHistories (lim : Limits) (ops : List CollectionOp) : Option Histories :=
  ops.foldlM (CollectionOp.spec lim) {}

/-- What a map shows of its history: its entries are those of the history in the order of their
    births, and keys are distinct, and under a key is what was inserted last. -/
structure ShowsMap (m : Memory MapEntry) (s : Slice) (events : List (Event Value Value)) :
    Prop where
  entries : m.elements s = some (entriesOf equalValue events)
  distinct : Distinct equalValue (entriesOf equalValue events)
  get : ∀ key, mapGet m s key = some (match lastInserted equalValue events key with
    | some value => .present value
    | none => .absent)
  containsKey : ∀ key, mapContainsKey m s key = some (lastInserted equalValue events key).isSome
  keys : mapKeys m s = some ((entriesOf equalValue events).map (·.1))
  values : mapValues m s = some ((entriesOf equalValue events).map (·.2))

/-- What a set shows of its history. -/
structure ShowsSet (m : Memory Value) (s : Slice) (events : List (Event Value Unit)) : Prop where
  items : setToArray m s = some ((entriesOf equalValue events).map (·.1))
  distinct : Distinct equalValue (entriesOf equalValue events)
  contains : ∀ item, setContains m s item = some (lastInserted equalValue events item).isSome
  length : setLen s = (entriesOf equalValue events).length

/-- Every version shows its history. -/
structure Shown (c : Collections) (h : Histories) : Prop where
  maps : List.Forall₂ (ShowsMap c.entries) c.maps h.maps
  sets : List.Forall₂ (ShowsSet c.items) c.sets h.sets
  reported : c.reported = h.reported

/-! ## Steps -/

theorem equalValue_partial [BinaryFloats] : PartialEquivalence equalValue :=
  ⟨equalValue_comm, fun _ _ _ => equalValue_trans⟩

variable {events : List (Event Value Value)} {s : Slice}

theorem ShowsMap.of_elements [BinaryFloats] {m : Memory MapEntry}
    (h : m.elements s = some (entriesOf equalValue events)) :
    ShowsMap m s events where
  entries := h
  distinct := by
    rw [← replay_eq equalValue_partial]
    exact distinct_replay events
  get := by
    intro key
    rw [mapGet_eq h, ← replay_eq equalValue_partial, find_replay equalValue_partial]
  containsKey := by
    intro key
    rw [mapContainsKey, h, ← find_replay equalValue_partial, replay_eq equalValue_partial,
      find_isSome]
    rfl
  keys := by
    rw [mapKeys, h]
    rfl
  values := by
    rw [mapValues, h]
    rfl

theorem ShowsSet.of_elements [BinaryFloats] {m : Memory Value} {events : List (Event Value Unit)}
    (h : m.elements s = some ((entriesOf equalValue events).map (·.1))) : ShowsSet m s events where
  items := h
  distinct := by
    rw [← replay_eq equalValue_partial]
    exact distinct_replay events
  contains := by
    intro item
    rw [setContains, h, ← find_replay equalValue_partial, replay_eq equalValue_partial,
      find_isSome, Option.map_some, List.any_map]
    rfl
  length := by
    rw [setLen, ← Memory.elements_length h, length_map]

theorem ShowsMap.mono [BinaryFloats] {m m' : Memory MapEntry} (h : ShowsMap m s events)
    (hm : m.AddsCells m') :
    ShowsMap m' s events :=
  ShowsMap.of_elements (hm.extends.elements h.entries)

theorem ShowsSet.mono [BinaryFloats] {m m' : Memory Value} {events : List (Event Value Unit)}
    (h : ShowsSet m s events) (hm : m.AddsCells m') :
    ShowsSet m' s events :=
  ShowsSet.of_elements (hm.extends.elements h.items)

theorem Shown.empty : Shown {} {} := ⟨List.Forall₂.nil, List.Forall₂.nil, rfl⟩

section Step

variable [BinaryFloats] {c : Collections} {h h' : Histories}

theorem Shown.addMap (hshown : Shown c h) {run : MemoryM MapEntry (Except String Slice)}
    (hrun : BuildsSlice c.entries (run c.entries) (entriesOf equalValue events)) :
    ∃ c', c.addMap run = some c' ∧ Continues c c' h (h.addMap events) ∧
      Shown c' (h.addMap events) := by
  obtain ⟨s, m, hrun, hadds, hs⟩ := hrun
  refine ⟨{ c with entries := m, maps := c.maps ++ [s] }, ?_, ?_, ?_⟩
  · rw [Collections.addMap, hrun]
  · exact ⟨prefix_append _ _, prefix_refl _, prefix_append _ _,
      prefix_refl _⟩
  · exact ⟨rel_append (hshown.maps.imp fun _ _ hold => hold.mono hadds)
      (List.Forall₂.cons (ShowsMap.of_elements hs) List.Forall₂.nil), hshown.sets,
      hshown.reported⟩

theorem Shown.reportMap (hshown : Shown c h) {run : MemoryM MapEntry (Except String Slice)}
    {text : String} (hrun : ReportsError c.entries (run c.entries) text) :
    ∃ c', c.addMap run = some c' ∧ Continues c c' h (h.report text) ∧
      Shown c' (h.report text) := by
  obtain ⟨m, hrun, hadds⟩ := hrun
  refine ⟨{ c with entries := m, reported := c.reported ++ [text] }, ?_, ?_, ?_⟩
  · rw [Collections.addMap, hrun]
  · exact ⟨prefix_refl _, prefix_refl _, prefix_refl _, prefix_refl _⟩
  · refine ⟨hshown.maps.imp fun _ _ hold => hold.mono hadds, hshown.sets, ?_⟩
    rw [Histories.report, hshown.reported]

theorem Shown.addSet (hshown : Shown c h) {run : MemoryM Value (Except String Slice)}
    {events : List (Event Value Unit)}
    (hrun : BuildsSlice c.items (run c.items) ((entriesOf equalValue events).map (·.1))) :
    ∃ c', c.addSet run = some c' ∧ Continues c c' h (h.addSet events) ∧
      Shown c' (h.addSet events) := by
  obtain ⟨s, m, hrun, hadds, hs⟩ := hrun
  refine ⟨{ c with items := m, sets := c.sets ++ [s] }, ?_, ?_, ?_⟩
  · rw [Collections.addSet, hrun]
  · exact ⟨prefix_refl _, prefix_append _ _, prefix_refl _,
      prefix_append _ _⟩
  · exact ⟨hshown.maps, rel_append (hshown.sets.imp fun _ _ hold => hold.mono hadds)
      (List.Forall₂.cons (ShowsSet.of_elements hs) List.Forall₂.nil), hshown.reported⟩

theorem Shown.reportSet (hshown : Shown c h) {run : MemoryM Value (Except String Slice)}
    {text : String} (hrun : ReportsError c.items (run c.items) text) :
    ∃ c', c.addSet run = some c' ∧ Continues c c' h (h.report text) ∧
      Shown c' (h.report text) := by
  obtain ⟨m, hrun, hadds⟩ := hrun
  refine ⟨{ c with items := m, reported := c.reported ++ [text] }, ?_, ?_, ?_⟩
  · rw [Collections.addSet, hrun]
  · exact ⟨prefix_refl _, prefix_refl _, prefix_refl _, prefix_refl _⟩
  · refine ⟨hshown.maps, hshown.sets.imp fun _ _ hold => hold.mono hadds, ?_⟩
    rw [Histories.report, hshown.reported]

/-- Each operation on versions does what it does on histories. -/
theorem Shown.step (lim : Limits) (hshown : Shown c h) (op : CollectionOp)
    (hspec : op.spec lim h = some h') :
    ∃ c', op.step lim c = some c' ∧ Continues c c' h h' ∧ Shown c' h' := by
  cases op with
  | mapLiteral entries =>
    obtain rfl := Option.some.inj hspec
    have hrun := mapLiteral_run lim c.entries entries
    split
    · rename_i hdup
      rw [if_pos hdup] at hrun
      exact hshown.reportMap hrun
    · rename_i hdup
      rw [if_neg hdup] at hrun
      split
      · rename_i hbudget
        rw [if_pos hbudget] at hrun
        exact hshown.reportMap hrun
      · rename_i hbudget
        rw [if_neg hbudget] at hrun
        have hall : entriesOf equalValue (entries.map fun e => .insert e.1 e.2) = entries := by
          rw [← replay_eq equalValue_partial]
          exact @insert_all _ _ equalValue [] entries (not_not.mp hdup)
        apply hshown.addMap
        rwa [hall]
  | mapInsert version key value =>
    obtain ⟨events, hevents, hspec⟩ := bind_eq_some_iff.mp hspec
    obtain rfl := Option.some.inj hspec
    obtain ⟨s, hs, hmap⟩ := forall₂_getElem? hshown.maps hevents
    have hrun := mapInsert_run lim hmap.entries key value
    have hfind : find equalValue (entriesOf equalValue events) key =
        lastInserted equalValue events key := by
      rw [← find_replay equalValue_partial, replay_eq equalValue_partial]
    rw [hfind] at hrun
    rw [CollectionOp.step, hs]
    split
    · rename_i hfull
      rw [if_pos hfull] at hrun
      exact hshown.reportMap hrun
    · rename_i hfull
      rw [if_neg hfull] at hrun
      apply hshown.addMap
      rw [← replay_eq equalValue_partial, replay_snoc, replay_eq equalValue_partial]
      exact hrun
  | mapRemove version key =>
    obtain ⟨events, hevents, hspec⟩ := bind_eq_some_iff.mp hspec
    obtain rfl := Option.some.inj hspec
    obtain ⟨s, hs, hmap⟩ := forall₂_getElem? hshown.maps hevents
    rw [CollectionOp.step, hs]
    apply hshown.addMap
    rw [← replay_eq equalValue_partial, replay_snoc, replay_eq equalValue_partial]
    exact remove_builds _ hmap.entries
  | setLiteral items =>
    obtain rfl := Option.some.inj hspec
    apply hshown.addSet
    rw [← replay_eq equalValue_partial]
    exact setLiteral_run c.items items
  | setInsert version item =>
    obtain ⟨events, hevents, hspec⟩ := bind_eq_some_iff.mp hspec
    obtain rfl := Option.some.inj hspec
    obtain ⟨s, hs, hset⟩ := forall₂_getElem? hshown.sets hevents
    have hrun := setInsert_run lim hset.items item
    have hfind : find equalValue (entriesOf equalValue events) item =
        lastInserted equalValue events item := by
      rw [← find_replay equalValue_partial, replay_eq equalValue_partial]
    rw [hfind] at hrun
    rw [CollectionOp.step, hs]
    split
    · rename_i hfull
      rw [if_pos hfull] at hrun
      exact hshown.reportSet hrun
    · rename_i hfull
      rw [if_neg hfull] at hrun
      apply hshown.addSet
      rw [← replay_eq equalValue_partial, replay_snoc, replay_eq equalValue_partial]
      exact hrun
  | setRemove version item =>
    obtain ⟨events, hevents, hspec⟩ := bind_eq_some_iff.mp hspec
    obtain rfl := Option.some.inj hspec
    obtain ⟨s, hs, hset⟩ := forall₂_getElem? hshown.sets hevents
    rw [CollectionOp.step, hs]
    apply hshown.addSet
    rw [← replay_eq equalValue_partial, replay_snoc, replay_eq equalValue_partial]
    have hrun := remove_builds (fun x => equalValue x item) hset.items
    rw [List.filter_map] at hrun
    exact hrun

theorem Shown.run (lim : Limits) (hshown : Shown c h) (ops : List CollectionOp)
    (hspec : ops.foldlM (CollectionOp.spec lim) h = some h') :
    ∃ c', ops.foldlM (CollectionOp.step lim) c = some c' ∧ Continues c c' h h' ∧ Shown c' h' := by
  induction ops generalizing c h with
  | nil =>
    obtain rfl := Option.some.inj hspec
    exact ⟨c, rfl, Continues.refl c h, hshown⟩
  | cons op ops ih =>
    obtain ⟨h₁, hop, hspec⟩ := bind_eq_some_iff.mp hspec
    obtain ⟨c₁, hstep, hcontinues, hshown₁⟩ := hshown.step lim op hop
    obtain ⟨c₂, hrun, hcontinues', hshown₂⟩ := ih hshown₁ hspec
    refine ⟨c₂, ?_, hcontinues.trans hcontinues', hshown₂⟩
    rw [foldlM_cons, hstep]
    exact hrun

end Step

/-- Maps and sets show their histories. Wherever a sequence of operations is split, the versions
    that are made before the split are there after it and show the same histories. An insertion
    of a key that a history has keeps the places; a key that is removed and inserted again has
    the last one. -/
theorem collections_refine [BinaryFloats] (lim : Limits) :
    (∀ (before after : List CollectionOp) (h : Histories),
      runHistories lim (before ++ after) = some h →
      ∃ h₁ c₁ c, runHistories lim before = some h₁ ∧ runCollections lim before = some c₁ ∧
        runCollections lim (before ++ after) = some c ∧ Continues c₁ c h₁ h ∧
        Shown c₁ h₁ ∧ Shown c h) ∧
    (∀ (events : List (Event Value Value)) (k v : Value),
      (lastInserted equalValue events k).isSome = true →
        entriesOf equalValue (events ++ [.insert k v]) =
          (entriesOf equalValue events).map fun e => if equalValue e.1 k then (e.1, v) else e) ∧
    (∀ (events : List (Event Value Value)) (k v : Value),
      entriesOf equalValue (events ++ [.remove k, .insert k v]) =
        ((entriesOf equalValue events).filter fun e => !equalValue e.1 k) ++ [(k, v)]) := by
  refine ⟨?_, entriesOf_insert_again equalValue_partial, entriesOf_reinsert equalValue_partial⟩
  intro before after h hspec
  rw [runHistories, foldlM_append] at hspec
  obtain ⟨h₁, hbefore, hafter⟩ := bind_eq_some_iff.mp hspec
  obtain ⟨c₁, hrun₁, -, hshown₁⟩ := Shown.empty.run lim before hbefore
  obtain ⟨c, hrun, hcontinues, hshown⟩ := hshown₁.run lim after hafter
  refine ⟨h₁, c₁, c, hbefore, hrun₁, ?_, hcontinues, hshown₁, hshown⟩
  rw [runCollections, foldlM_append]
  exact bind_eq_some_iff.mpr ⟨c₁, hrun₁, hrun⟩

end Runs

/-- A key is replaced, removed and inserted again; the versions that are made before stay. -/
theorem collections_refine_example : ∃ h₁ c₁ c,
    @runHistories binary64 {} [.mapLiteral [(.int 1, .int 10), (.int 2, .int 20)],
      .mapInsert 0 (.int 1) (.int 11)] = some h₁ ∧
    @runCollections binary64 {} [.mapLiteral [(.int 1, .int 10), (.int 2, .int 20)],
      .mapInsert 0 (.int 1) (.int 11)] = some c₁ ∧
    @runCollections binary64 {} ([.mapLiteral [(.int 1, .int 10), (.int 2, .int 20)],
      .mapInsert 0 (.int 1) (.int 11)] ++ [.mapRemove 1 (.int 1),
        .mapInsert 2 (.int 1) (.int 12)]) = some c ∧
    Continues c₁ c h₁
      { maps := [[.insert (.int 1) (.int 10), .insert (.int 2) (.int 20)],
          [.insert (.int 1) (.int 10), .insert (.int 2) (.int 20), .insert (.int 1) (.int 11)],
          [.insert (.int 1) (.int 10), .insert (.int 2) (.int 20), .insert (.int 1) (.int 11),
            .remove (.int 1)],
          [.insert (.int 1) (.int 10), .insert (.int 2) (.int 20), .insert (.int 1) (.int 11),
            .remove (.int 1), .insert (.int 1) (.int 12)]] } ∧
    @Shown binary64 c₁ h₁ ∧
    @Shown binary64 c
      { maps := [[.insert (.int 1) (.int 10), .insert (.int 2) (.int 20)],
          [.insert (.int 1) (.int 10), .insert (.int 2) (.int 20), .insert (.int 1) (.int 11)],
          [.insert (.int 1) (.int 10), .insert (.int 2) (.int 20), .insert (.int 1) (.int 11),
            .remove (.int 1)],
          [.insert (.int 1) (.int 10), .insert (.int 2) (.int 20), .insert (.int 1) (.int 11),
            .remove (.int 1), .insert (.int 1) (.int 12)]] } :=
  (@collections_refine binary64 binary64_floats {}).1 _ _ _ rfl

end Kryndel
