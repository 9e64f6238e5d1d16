import Kryndel.Discord.ObjectCache

/-!
# What the object cache keeps

When there is no room the cache looks for the object whose last use has the earliest time. If
there is one such object it is the one that has not been used for longest. If there are more of
them, the order in which the table is ranged over decides, and the one that goes may be any of
them, the one just put among them.
-/

namespace Kryndel.Discord

open Recency List

variable {V : Type}

/-! ## Entries -/

namespace ObjectCache

variable {cache : ObjectCache V}

variable {entry : String × CacheEntry V}

variable {p : String × CacheEntry V → Bool}

theorem mem_drop :
    entry ∈ (cache.drop p).entries ↔ entry ∈ cache.entries ∧ p entry = false := by
  rw [drop, mem_filter, Bool.not_eq_true']

variable {key : String}

theorem mem_store {value : CacheEntry V} :
    entry ∈ (cache.store key value).entries ↔
      entry = (key, value) ∨ entry ∈ cache.entries ∧ entry.1 ≠ key := by
  rw [store, mem_cons, mem_drop, beq_eq_false_iff_ne]

theorem mem_enter {now : Nat} {value : V} :
    entry ∈ (cache.enter now key value).entries ↔ entry = (key, ⟨value, now⟩) ∨
      (entry ∈ cache.entries ∧ cache.expired now entry.2 = false) ∧ entry.1 ≠ key := by
  rw [enter, mem_store, mem_drop]

theorem lookup_iff {entry : CacheEntry V} :
    cache.entries.lookup key = some entry ↔ (key, entry) ∈ cache.entries :=
  Assoc.lookup_eq_some_iff_mem cache.distinct

theorem length_drop_le (p : String × CacheEntry V → Bool) :
    (cache.drop p).entries.length ≤ cache.entries.length := length_filter_le _ _

theorem length_drop_lt (hmem : entry ∈ cache.entries) (hp : p entry = true) :
    (cache.drop p).entries.length < cache.entries.length := by
  apply length_filter_lt_length_iff_exists.mpr
  exact ⟨entry, hmem, by simp [hp]⟩

theorem length_store_le (key : String) (value : CacheEntry V) :
    (cache.store key value).entries.length ≤ cache.entries.length + 1 :=
  Nat.succ_le_succ (length_drop_le _)

theorem length_store_of_mem {entry value : CacheEntry V} (h : (key, entry) ∈ cache.entries) :
    (cache.store key value).entries.length ≤ cache.entries.length := by
  apply Nat.succ_le_of_lt
  exact length_drop_lt h (by simp)

/-! ## The scan -/

/-- An entry with the earliest time. -/
def IsOldest (entries : List (String × CacheEntry V)) (entry : String × CacheEntry V) : Prop :=
  entry ∈ entries ∧ ∀ other ∈ entries, entry.2.seen ≤ other.2.seen

theorem IsOldest.of_perm {entries entries' : List (String × CacheEntry V)}
    (hperm : entries'.Perm entries) (h : IsOldest entries' entry) : IsOldest entries entry :=
  ⟨hperm.mem_iff.mp h.1, fun other hother => h.2 other (hperm.mem_iff.mpr hother)⟩

theorem foldl_older (entries : List (String × CacheEntry V)) (first : String × CacheEntry V)
    (hnamed : ∀ entry ∈ first :: entries, entry.1 ≠ "") :
    ∃ entry, IsOldest (first :: entries) entry ∧
      entries.foldl older (first.1, first.2.seen) = (entry.1, entry.2.seen) := by
  induction entries generalizing first with
  | nil => exact ⟨first, ⟨mem_cons_self, by simp⟩, rfl⟩
  | cons next entries ih =>
    have hfirst : first.1 ≠ "" := hnamed first mem_cons_self
    rw [foldl_cons]
    by_cases hlt : next.2.seen < first.2.seen
    · obtain ⟨entry, ⟨hmem, hle⟩, heq⟩ := ih next fun other hother =>
        hnamed other (mem_cons_of_mem _ hother)
      refine ⟨entry, ⟨mem_cons_of_mem _ hmem, ?_⟩, ?_⟩
      · intro other hother
        rcases mem_cons.mp hother with rfl | hother
        · exact Nat.le_trans (hle next mem_cons_self) (Nat.le_of_lt hlt)
        · exact hle other hother
      · rw [older, if_pos (Or.inr hlt), heq]
    · obtain ⟨entry, ⟨hmem, hle⟩, heq⟩ := ih first fun other hother => by
        rcases mem_cons.mp hother with rfl | hother
        · exact hfirst
        · exact hnamed other (mem_cons_of_mem _ (mem_cons_of_mem _ hother))
      refine ⟨entry, ⟨?_, ?_⟩, ?_⟩
      · rcases mem_cons.mp hmem with rfl | hmem
        · exact mem_cons_self
        · exact mem_cons_of_mem _ (mem_cons_of_mem _ hmem)
      · intro other hother
        rcases mem_cons.mp hother with rfl | hother
        · exact hle other mem_cons_self
        rcases mem_cons.mp hother with rfl | hother
        · exact Nat.le_trans (hle first mem_cons_self) (Nat.not_lt.mp hlt)
        · exact hle other (mem_cons_of_mem _ hother)
      · rw [older, if_neg (not_or.mpr ⟨hfirst, hlt⟩), heq]

variable {entries : List (String × CacheEntry V)}

theorem oldestKey_spec (hne : entries ≠ []) (hnamed : ∀ entry ∈ entries, entry.1 ≠ "") :
    ∃ entry, IsOldest entries entry ∧ oldestKey entries = entry.1 := by
  obtain ⟨first, rest, rfl⟩ := exists_cons_of_ne_nil hne
  obtain ⟨entry, holdest, heq⟩ := foldl_older rest first hnamed
  refine ⟨entry, holdest, ?_⟩
  have hstart : older ("", 0) first = (first.1, first.2.seen) := if_pos (Or.inl rfl)
  rw [oldestKey, foldl_cons, hstart, heq]

theorem oldestKey_cons (hnamed : entry.1 ≠ "")
    (hle : ∀ other ∈ entries, entry.2.seen ≤ other.2.seen) :
    oldestKey (entry :: entries) = entry.1 := by
  have hstart : older ("", 0) entry = (entry.1, entry.2.seen) := if_pos (Or.inl rfl)
  rw [oldestKey, foldl_cons, hstart]
  induction entries with
  | nil => rfl
  | cons other entries ih =>
    have hnot : ¬ ((entry.1, entry.2.seen).1 = "" ∨
        other.2.seen < (entry.1, entry.2.seen).2) := by
      rw [not_or]
      exact ⟨hnamed, Nat.not_lt.mpr (hle other mem_cons_self)⟩
    rw [foldl_cons, older, if_neg hnot]
    exact ih fun next hnext => hle next (mem_cons_of_mem _ hnext)

/-! ## Making room -/

theorem makeRoom_eq (order : RangeOrder V) (hnamed : ∀ entry ∈ cache.entries, entry.1 ≠ "")
    (hlength : cache.entries.length ≤ cache.capacity + 1) :
    makeRoom order cache.entries.length cache =
      if cache.entries.length > cache.capacity then
        cache.drop (·.1 == oldestKey (order.order cache.entries))
      else cache := by
  cases hrounds : cache.entries.length with
  | zero =>
    rfl
  | succ n =>
    rw [makeRoom, hrounds]
    split
    · next hfull =>
      -- After one round there is room.
      have hne : order.order cache.entries ≠ [] := by
        intro hnil
        have hzero := (order.perm cache.entries).length_eq
        rw [hnil, hrounds] at hzero
        cases hzero
      obtain ⟨entry, holdest, hkey⟩ := oldestKey_spec hne fun entry hentry =>
        hnamed entry ((order.perm _).mem_iff.mp hentry)
      have hlt := length_drop_lt
        (p := (·.1 == oldestKey (order.order cache.entries)))
        (holdest.of_perm (order.perm _)).1 (by simp [hkey])
      have hroom : ¬ (cache.drop (·.1 == oldestKey (order.order cache.entries))).entries.length >
          cache.capacity := by omega
      cases n with
      | zero => rfl
      | succ n => exact if_neg hroom
    · rfl

end ObjectCache

/-! ## The specification -/

/-- A cache whose text check is that of `put`. -/
abbrev Fits (V : Type) := String → V → Bool

section Specification

variable (fits : Fits V) (s : CacheRun V) (call : CacheCall V)

/-- The entries among which a call chooses those that stay: an object that is put, and the other
    ones that are not too old. -/
def admitted : CacheCall V → List (String × CacheEntry V)
  | .put kind id value =>
    if putAllowed fits kind id value then
      (cacheKey kind id, ⟨value, s.now⟩) :: s.cache.entries.filter fun entry =>
        entry.1 != cacheKey kind id && s.now - entry.2.seen < s.cache.ttl
    else []
  | _ => []

/-- Is the object of a key replaced or removed by a call? -/
def touches (key : String) : CacheCall V → Bool
  | .put kind id _ | .delete kind id => key == cacheKey kind id
  | .clear => true
  | _ => false

/-- A call has taken away an object to make room. -/
def Evicted (s' : CacheRun V) (key : String) : Prop :=
  (∃ entry ∈ admitted fits s call, entry.1 = key) ∧ ∀ entry ∈ s'.cache.entries, entry.1 ≠ key

/-- What a call should do. -/
structure CacheRun.Sound (s' : CacheRun V) : Prop where
  /-- The cache keeps its bounds. -/
  bounded : s'.cache.entries.length ≤ s'.cache.capacity ∧
    s'.cache.capacity = s.cache.capacity ∧ s'.cache.ttl = s.cache.ttl
  /-- An object just put can be read until its lifetime ends. -/
  stored : ∀ kind id value, call = .put kind id value → putAllowed fits kind id value = true →
    ∀ d < s'.cache.ttl, ({ s' with now := s'.now + d } : CacheRun V).answer kind id = some value
  /-- What is read has been used within the lifetime. -/
  fresh : ∀ kind id value, s'.answer kind id = some value →
    ∃ t, s'.uses.lookup (cacheKey kind id) = some t ∧ s'.now - t < s'.cache.ttl
  /-- What could be read still can, if it is not replaced, removed, too old or evicted. -/
  kept : ∀ kind id value, s.answer kind id = some value →
    touches (cacheKey kind id) call = false →
      (∀ t, s'.uses.lookup (cacheKey kind id) = some t → s'.now - t < s'.cache.ttl) →
        ¬ Evicted fits s call s' (cacheKey kind id) → s'.answer kind id = some value
  /-- All that stays has been used more recently than what is evicted. -/
  recent : ∀ key, Evicted fits s call s' key → ∀ entry ∈ s'.cache.entries,
    Later s'.uses entry.1 key

/-- If there is no room, then one entry alone has the earliest time. -/
def CacheRun.Untied : Prop :=
  (admitted fits s call).length > s.cache.capacity →
    ∀ a b, ObjectCache.IsOldest (admitted fits s call) a →
      ObjectCache.IsOldest (admitted fits s call) b → a.1 = b.1

end Specification

/-! ## Times and uses -/

/-- The times of the entries are those of their last uses. -/
structure CacheRun.Inv (s : CacheRun V) : Prop where
  ordered : Ordered s.now s.uses
  used : ∀ entry ∈ s.cache.entries, s.uses.lookup entry.1 = some entry.2.seen
  named : ∀ entry ∈ s.cache.entries, entry.1 ≠ ""
  bounded : s.cache.entries.length ≤ s.cache.capacity

theorem cacheKey_ne (kind id : String) : cacheKey kind id ≠ "" := by
  intro h
  have hlength := congrArg String.length h
  rw [cacheKey, String.length_append, String.length_append] at hlength
  have hcolon : ":".length = 1 := rfl
  have hempty : "".length = 0 := rfl
  omega

theorem CacheRun.Inv.drop {s : CacheRun V} (h : s.Inv) (p : String × CacheEntry V → Bool) :
    CacheRun.Inv { s with cache := s.cache.drop p } where
  ordered := h.ordered
  used entry hentry := h.used entry (ObjectCache.mem_drop.mp hentry).1
  named entry hentry := h.named entry (ObjectCache.mem_drop.mp hentry).1
  bounded := Nat.le_trans (ObjectCache.length_drop_le p) h.bounded

section Put

variable {s : CacheRun V} (h : s.Inv) (kind id : String) (value : V)

/-- The cache in which room is made. -/
def CacheRun.full (s : CacheRun V) (kind id : String) (value : V) : ObjectCache V :=
  s.cache.enter s.now (cacheKey kind id) value

include h

theorem full_used : ∀ entry ∈ (s.full kind id value).entries,
    ((cacheKey kind id, s.now) :: s.uses).lookup entry.1 = some entry.2.seen := by
  intro entry hentry
  rcases ObjectCache.mem_enter.mp hentry with rfl | ⟨⟨hmem, -⟩, hne⟩
  · exact lookup_cons_self
  · rw [lookup_cons, beq_eq_false_iff_ne.mpr hne]
    exact h.used entry hmem

theorem full_named : ∀ entry ∈ (s.full kind id value).entries, entry.1 ≠ "" := by
  intro entry hentry
  rcases ObjectCache.mem_enter.mp hentry with rfl | ⟨⟨hmem, -⟩, -⟩
  · exact cacheKey_ne kind id
  · exact h.named entry hmem

theorem full_length : (s.full kind id value).entries.length ≤ (s.full kind id value).capacity + 1 :=
  Nat.le_trans (ObjectCache.length_store_le _ _)
    (Nat.succ_le_succ (Nat.le_trans (ObjectCache.length_drop_le _) h.bounded))

theorem setLocked_eq (order : RangeOrder V) :
    s.cache.setLocked order s.now kind id value =
      if (s.full kind id value).entries.length > s.cache.capacity then
        (s.full kind id value).drop
          (·.1 == ObjectCache.oldestKey (order.order (s.full kind id value).entries))
      else s.full kind id value :=
  ObjectCache.makeRoom_eq order (full_named h kind id value) (full_length h kind id value)

theorem exists_oldest (order : RangeOrder V)
    (hfull : (s.full kind id value).entries.length > s.cache.capacity) :
    ∃ entry, ObjectCache.IsOldest (s.full kind id value).entries entry ∧
      ObjectCache.oldestKey (order.order (s.full kind id value).entries) = entry.1 := by
  have hne : order.order (s.full kind id value).entries ≠ [] := by
    intro hnil
    have hzero := (order.perm (s.full kind id value).entries).length_eq
    rw [hnil, length_nil] at hzero
    omega
  obtain ⟨entry, holdest, hkey⟩ := ObjectCache.oldestKey_spec hne fun entry hentry =>
    full_named h kind id value entry ((order.perm _).mem_iff.mp hentry)
  exact ⟨entry, holdest.of_perm (order.perm _), hkey⟩

theorem inv_put (order : RangeOrder V) : CacheRun.Inv { s with
    cache := s.cache.setLocked order s.now kind id value
    uses := (cacheKey kind id, s.now) :: s.uses } := by
  have hinv : ∀ cache : ObjectCache V,
      (∀ entry ∈ cache.entries, entry ∈ (s.full kind id value).entries) →
        cache.entries.length ≤ cache.capacity →
          CacheRun.Inv { s with cache, uses := (cacheKey kind id, s.now) :: s.uses } := by
    intro cache hsub hbounded
    exact {
      ordered := h.ordered.cons _
      used := fun entry hentry => full_used h kind id value entry (hsub entry hentry)
      named := fun entry hentry => full_named h kind id value entry (hsub entry hentry)
      bounded := hbounded }
  rw [setLocked_eq h]
  split
  · next hfull =>
    obtain ⟨entry, holdest, hkey⟩ := exists_oldest h kind id value order hfull
    refine hinv _ (fun other hother => (ObjectCache.mem_drop.mp hother).1) ?_
    have hlt := ObjectCache.length_drop_lt
      (p := (·.1 == ObjectCache.oldestKey (order.order (s.full kind id value).entries)))
      holdest.1 (by simp [hkey])
    exact Nat.le_of_lt_succ (Nat.lt_of_lt_of_le hlt (full_length h kind id value))
  · next hroom => exact hinv _ (fun other hother => hother) (Nat.not_lt.mp hroom)

end Put

theorem get_none {cache : ObjectCache V} {kind id : String}
    (h : cache.entries.lookup (cacheKey kind id) = none) (now pause : Nat) :
    cache.get now pause kind id = (cache, none) := by
  simp [ObjectCache.get, h]

theorem get_expired {cache : ObjectCache V} {kind id : String} {entry : CacheEntry V} {now : Nat}
    (h : cache.entries.lookup (cacheKey kind id) = some entry)
    (hexpired : cache.expired now entry = true) (pause : Nat) :
    cache.get now pause kind id = (cache.drop (·.1 == cacheKey kind id), none) := by
  simp [ObjectCache.get, h, if_pos hexpired]

theorem get_live {cache : ObjectCache V} {kind id : String} {entry : CacheEntry V} {now : Nat}
    (h : cache.entries.lookup (cacheKey kind id) = some entry)
    (hexpired : cache.expired now entry = false) (pause : Nat) :
    cache.get now pause kind id =
      (cache.store (cacheKey kind id) { entry with seen := now + pause }, some entry.value) := by
  simp [ObjectCache.get, h, hexpired]

theorem answer_iff {s : CacheRun V} {kind id : String} {value : V} :
    s.answer kind id = some value ↔ ∃ entry, (cacheKey kind id, entry) ∈ s.cache.entries ∧
      s.cache.expired s.now entry = false ∧ entry.value = value := by
  simp only [← ObjectCache.lookup_iff]
  cases hfind : s.cache.entries.lookup (cacheKey kind id) with
  | none => simp [CacheRun.answer, get_none hfind]
  | some entry =>
    cases hexpired : s.cache.expired s.now entry with
    | true => simp [CacheRun.answer, get_expired hfind hexpired, hexpired]
    | false => simp [CacheRun.answer, get_live hfind hexpired, hexpired]

theorem get_eq (s : CacheRun V) (pause : Nat) (kind id : String) :
    (∃ entry, (cacheKey kind id, entry) ∈ s.cache.entries ∧
      s.answer kind id = some entry.value ∧ (s.cache.get s.now pause kind id).1 =
        s.cache.store (cacheKey kind id) { entry with seen := s.now + pause }) ∨
    s.answer kind id = none ∧ ∃ p, (s.cache.get s.now pause kind id).1 = s.cache.drop p ∧
      ∀ entry ∈ s.cache.entries, p entry = true →
        entry.1 = cacheKey kind id ∧ s.cache.expired s.now entry.2 = true := by
  unfold CacheRun.answer
  cases hfind : s.cache.entries.lookup (cacheKey kind id) with
  | none =>
    rw [get_none hfind, get_none hfind]
    right
    refine ⟨rfl, fun _ => false, ?_, fun entry _ h => by cases h⟩
    simp [ObjectCache.drop]
  | some entry =>
    have hmem := ObjectCache.lookup_iff.mp hfind
    cases hexpired : s.cache.expired s.now entry with
    | true =>
      rw [get_expired hfind hexpired, get_expired hfind hexpired]
      right
      refine ⟨rfl, (·.1 == cacheKey kind id), rfl, ?_⟩
      intro other hother hkey
      have hsame : other.1 = cacheKey kind id := by simpa using hkey
      refine ⟨hsame, ?_⟩
      rw [← hsame] at hfind
      have hlookup := ObjectCache.lookup_iff.mpr hother
      rw [Option.some.inj (hlookup.symm.trans hfind)]
      exact hexpired
    | false =>
      rw [get_live hfind hexpired, get_live hfind hexpired]
      left
      exact ⟨entry, hmem, rfl, rfl⟩

theorem inv_get {s : CacheRun V} (h : s.Inv) (kind id : String) (pause : Nat) :
    CacheRun.Inv {
      cache := (s.cache.get s.now pause kind id).1
      now := s.now + pause
      uses := if (s.answer kind id).isSome then (cacheKey kind id, s.now + pause) :: s.uses
        else s.uses } := by
  have hlater : Ordered (s.now + pause) s.uses := h.ordered.mono (Nat.le_add_right _ _)
  rcases get_eq s pause kind id with ⟨entry, hmem, hanswer, hcache⟩ | ⟨hanswer, p, hcache, -⟩
  · rw [hcache, hanswer, Option.isSome_some, if_pos rfl]
    exact {
      ordered := hlater.cons _
      used := by
        intro other hother
        rcases ObjectCache.mem_store.mp hother with rfl | ⟨hother, hne⟩
        · exact lookup_cons_self
        · rw [lookup_cons, beq_eq_false_iff_ne.mpr hne]
          exact h.used other hother
      named := by
        intro other hother
        rcases ObjectCache.mem_store.mp hother with rfl | ⟨hother, -⟩
        · exact cacheKey_ne kind id
        · exact h.named other hother
      bounded := Nat.le_trans (ObjectCache.length_store_of_mem hmem) h.bounded }
  · rw [hcache, hanswer, Option.isSome_none, if_neg Bool.false_ne_true]
    exact {
      ordered := hlater
      used := (h.drop p).used
      named := (h.drop p).named
      bounded := (h.drop p).bounded }

theorem inv_step (fits : Fits V) {s s' : CacheRun V} {call : CacheCall V × RangeOrder V}
    (h : s.Inv) (hstep : s.step fits call = some s') : s'.Inv := by
  obtain ⟨call, order⟩ := call
  cases call with
  | put kind id value =>
    by_cases hallowed : putAllowed fits kind id value = true
    · rw [CacheRun.step] at hstep
      simp only [if_pos hallowed] at hstep
      cases hstep
      exact inv_put h kind id value order
    · rw [CacheRun.step] at hstep
      simp only [if_neg hallowed] at hstep
      cases hstep
      exact h
  | get kind id pause =>
    cases hstep
    exact inv_get h kind id pause
  | delete | clear =>
    cases hstep
    exact h.drop _
  | wait duration =>
    cases hstep
    exact ⟨h.ordered.mono (Nat.le_add_right _ _), h.used, h.named, h.bounded⟩

/-! ## What a call does -/

section Calls

variable (fits : Fits V) {s s' : CacheRun V}

theorem answer_fresh (h : s.Inv) {kind id : String} {value : V}
    (hanswer : s.answer kind id = some value) :
    ∃ t, s.uses.lookup (cacheKey kind id) = some t ∧ s.now - t < s.cache.ttl := by
  obtain ⟨entry, hmem, hexpired, -⟩ := answer_iff.mp hanswer
  refine ⟨entry.seen, h.used _ hmem, ?_⟩
  simpa [ObjectCache.expired] using hexpired

theorem answer_of_mem (h : s.Inv) {kind id : String} {entry : CacheEntry V}
    (hmem : (cacheKey kind id, entry) ∈ s.cache.entries)
    (halive : ∀ t, s.uses.lookup (cacheKey kind id) = some t → s.now - t < s.cache.ttl) :
    s.answer kind id = some entry.value := by
  refine answer_iff.mpr ⟨entry, hmem, ?_, rfl⟩
  have hlt := halive entry.seen (h.used _ hmem)
  simpa [ObjectCache.expired] using hlt

theorem not_evicted_of_nil {call : CacheCall V} (h : admitted fits s call = []) (key : String) :
    ¬ Evicted fits s call s' key := by
  rintro ⟨⟨entry, hmem, -⟩, -⟩
  rw [h] at hmem
  cases hmem

/-- A call that puts nothing does what it should, if it keeps the entries it does not touch. -/
theorem sound_of_nil {call : CacheCall V} (hinv' : s'.Inv)
    (hsame : s'.cache.capacity = s.cache.capacity ∧ s'.cache.ttl = s.cache.ttl)
    (hnil : admitted fits s call = [])
    (hput : ∀ kind id value, call = .put kind id value → putAllowed fits kind id value = false)
    (hkept : ∀ kind id entry, (cacheKey kind id, entry) ∈ s.cache.entries →
      s.cache.expired s.now entry = false → touches (cacheKey kind id) call = false →
        ∃ entry', (cacheKey kind id, entry') ∈ s'.cache.entries ∧ entry'.value = entry.value) :
    CacheRun.Sound fits s call s' where
  bounded := ⟨hinv'.bounded, hsame⟩
  stored kind id value hcall hallowed := by
    rw [hput kind id value hcall] at hallowed
    cases hallowed
  fresh _ _ _ hanswer := answer_fresh hinv' hanswer
  kept kind id value hanswer htouches halive _ := by
    obtain ⟨entry, hmem, hexpired, rfl⟩ := answer_iff.mp hanswer
    obtain ⟨entry', hmem', hvalue⟩ := hkept kind id entry hmem hexpired htouches
    rw [← hvalue]
    exact answer_of_mem hinv' hmem' halive
  recent key hevicted := absurd hevicted (not_evicted_of_nil fits hnil key)

end Calls

section Puts

variable (fits : Fits V) {s : CacheRun V} (h : s.Inv) {kind id : String} {value : V}
  (hallowed : putAllowed fits kind id value = true) (order : RangeOrder V)

/-- The state after a `put`. -/
def CacheRun.afterPut (s : CacheRun V) (kind id : String) (value : V) (order : RangeOrder V) :
    CacheRun V :=
  { s with
    cache := s.cache.setLocked order s.now kind id value
    uses := (cacheKey kind id, s.now) :: s.uses }

theorem step_put {s' : CacheRun V} (hallowed : putAllowed fits kind id value = true) :
    s.step fits (.put kind id value, order) = some s' ↔
      s' = s.afterPut kind id value order := by
  rw [CacheRun.step]
  simp only [if_pos hallowed, Option.some.injEq]
  exact eq_comm

theorem admitted_put (hallowed : putAllowed fits kind id value = true) :
    admitted fits s (.put kind id value) = (s.full kind id value).entries := by
  rw [admitted, if_pos hallowed]
  change _ = _ :: (s.cache.entries.filter _).filter _
  rw [filter_filter]
  congr 2
  funext entry
  simp only [ObjectCache.expired, bne, ge_iff_le, ← Nat.not_lt, decide_not, Bool.not_not]

include h

theorem afterPut_sub : ∀ entry ∈ (s.afterPut kind id value order).cache.entries,
    entry ∈ (s.full kind id value).entries := by
  intro entry hentry
  rw [CacheRun.afterPut, setLocked_eq h] at hentry
  split at hentry
  · exact (ObjectCache.mem_drop.mp hentry).1
  · exact hentry

theorem afterPut_same : (s.afterPut kind id value order).cache.capacity = s.cache.capacity ∧
    (s.afterPut kind id value order).cache.ttl = s.cache.ttl := by
  rw [CacheRun.afterPut, setLocked_eq h]
  split <;> exact ⟨rfl, rfl⟩

theorem oldest_of_gone {entry : String × CacheEntry V}
    (hmem : entry ∈ (s.full kind id value).entries)
    (hgone : entry ∉ (s.afterPut kind id value order).cache.entries) :
    ObjectCache.IsOldest (s.full kind id value).entries entry ∧
      (s.full kind id value).entries.length > s.cache.capacity ∧
        ∀ other ∈ (s.afterPut kind id value order).cache.entries, other.1 ≠ entry.1 := by
  rw [CacheRun.afterPut, setLocked_eq h] at hgone ⊢
  split
  · next hfull =>
    rw [if_pos hfull] at hgone
    obtain ⟨oldest, holdest, hkey⟩ := exists_oldest h kind id value order hfull
    rw [hkey] at hgone ⊢
    have hsame : entry.1 = oldest.1 := by
      by_contra hne
      exact hgone (ObjectCache.mem_drop.mpr ⟨hmem, by simpa using hne⟩)
    have heq : entry = oldest := by
      apply inj_on_of_nodup_map (s.full kind id value).distinct hmem holdest.1 hsame
    subst heq
    refine ⟨holdest, hfull, ?_⟩
    intro other hother
    simpa using (ObjectCache.mem_drop.mp hother).2
  · next hroom =>
    rw [if_neg hroom] at hgone
    exact absurd hmem hgone

theorem put_stays (huntied : s.Untied fits (.put kind id value))
    (hallowed : putAllowed fits kind id value = true) :
    (cacheKey kind id, ⟨value, s.now⟩) ∈ (s.afterPut kind id value order).cache.entries := by
  by_contra hgone
  have hmem : (cacheKey kind id, ⟨value, s.now⟩) ∈ (s.full kind id value).entries :=
    ObjectCache.mem_enter.mpr (Or.inl rfl)
  obtain ⟨holdest, hfull, -⟩ := oldest_of_gone h order hmem hgone
  unfold CacheRun.Untied at huntied
  rw [admitted_put fits hallowed] at huntied
  -- No entry is later than it, so that all of them are oldest ones.
  have hkeys : ∀ entry ∈ (s.full kind id value).entries, entry.1 = cacheKey kind id := by
    intro entry hentry
    have hnow : entry.2.seen ≤ s.now :=
      (h.ordered.cons (cacheKey kind id)).past _
        (Assoc.mem_of_lookup (full_used h kind id value entry hentry))
    refine huntied hfull entry _ ⟨hentry, ?_⟩ holdest
    intro other hother
    exact Nat.le_trans hnow (holdest.2 other hother)
  have hone : (s.full kind id value).entries.length ≤ 1 := by
    have hreplicate := eq_replicate_of_mem (l := (s.full kind id value).entries.map (·.1))
      (a := cacheKey kind id) (by
        intro key hkey
        obtain ⟨entry, hentry, rfl⟩ := mem_map.mp hkey
        exact hkeys entry hentry)
    have hnodup := (s.full kind id value).distinct
    rw [hreplicate, nodup_replicate, length_map] at hnodup
    exact hnodup
  have hpos := s.cache.capacity_pos
  omega

theorem sound_put (huntied : s.Untied fits (.put kind id value))
    (hallowed : putAllowed fits kind id value = true) :
    CacheRun.Sound fits s (.put kind id value) (s.afterPut kind id value order) := by
  have hinv' : (s.afterPut kind id value order).Inv := inv_put h kind id value order
  refine ⟨⟨hinv'.bounded, afterPut_same h order⟩, ?_, fun _ _ _ => answer_fresh hinv', ?_, ?_⟩
  · intro kind' id' value' hcall _ d hd
    cases hcall
    have hmem := put_stays fits h order huntied hallowed
    have hlater : CacheRun.Inv
        { s.afterPut kind id value order with now := (s.afterPut kind id value order).now + d } :=
      ⟨hinv'.ordered.mono (Nat.le_add_right _ _), hinv'.used, hinv'.named, hinv'.bounded⟩
    refine answer_of_mem hlater hmem ?_
    intro t ht
    have hnow : t = s.now := Option.some.inj (ht.symm.trans lookup_cons_self)
    subst hnow
    change s.now + d - s.now < _
    rw [Nat.add_sub_cancel_left]
    exact hd
  · intro kind' id' value' hanswer htouches halive hstays
    obtain ⟨entry, hmem, hexpired, rfl⟩ := answer_iff.mp hanswer
    have hfull : (cacheKey kind' id', entry) ∈ (s.full kind id value).entries :=
      ObjectCache.mem_enter.mpr (Or.inr ⟨⟨hmem, hexpired⟩, beq_eq_false_iff_ne.mp htouches⟩)
    refine answer_of_mem hinv' ?_ halive
    by_contra hgone
    refine hstays ⟨⟨(cacheKey kind' id', entry), ?_, rfl⟩, (oldest_of_gone h order hfull hgone).2.2⟩
    rwa [admitted_put fits hallowed]
  · intro key hevicted other hother
    obtain ⟨⟨entry, hentry, rfl⟩, hgone⟩ := hevicted
    rw [admitted_put fits hallowed] at hentry
    have hnot : entry ∉ (s.afterPut kind id value order).cache.entries :=
      fun hmem => hgone entry hmem rfl
    obtain ⟨holdest, hfull, -⟩ := oldest_of_gone h order hentry hnot
    have hmem := afterPut_sub h order other hother
    unfold CacheRun.Untied at huntied
    rw [admitted_put fits hallowed] at huntied
    have hlt : entry.2.seen < other.2.seen := by
      by_contra hle
      have hsame := huntied hfull other entry ⟨hmem, fun next hnext =>
        Nat.le_trans (Nat.not_lt.mp hle) (holdest.2 next hnext)⟩ holdest
      exact hgone other hother hsame
    exact later_of_lt hinv'.ordered (full_used h kind id value other hmem)
      (full_used h kind id value entry hentry) hlt

omit h

/-- The table is ranged over from a key on. -/
def frontOrder (V : Type) (key : String) : RangeOrder V where
  order entries := entries.filter (·.1 == key) ++ entries.filter (!·.1 == key)
  perm entries := filter_append_perm _ entries

include h

theorem front_goes {entry : String × CacheEntry V}
    (holdest : ObjectCache.IsOldest (s.full kind id value).entries entry)
    (hfull : (s.full kind id value).entries.length > s.cache.capacity) :
    (s.afterPut kind id value (frontOrder V entry.1)).cache.entries =
      ((s.full kind id value).drop (·.1 == entry.1)).entries := by
  have hne : (s.full kind id value).entries.filter (·.1 == entry.1) ≠ [] :=
    ne_nil_of_mem (mem_filter.mpr ⟨holdest.1, by simp⟩)
  obtain ⟨first, rest, hfirst⟩ := exists_cons_of_ne_nil hne
  have hmem : first ∈ (s.full kind id value).entries.filter (·.1 == entry.1) := by
    rw [hfirst]
    exact mem_cons_self
  rw [mem_filter] at hmem
  have heq : first = entry := inj_on_of_nodup_map (s.full kind id value).distinct hmem.1
    holdest.1 (by simpa using hmem.2)
  subst heq
  have horder : (frontOrder V first.1).order (s.full kind id value).entries = first ::
      (rest ++ (s.full kind id value).entries.filter (!·.1 == first.1)) := by
    change _ ++ _ = _
    rw [hfirst]
    rfl
  have hkey : ObjectCache.oldestKey (first ::
      (rest ++ (s.full kind id value).entries.filter (!·.1 == first.1))) = first.1 := by
    apply ObjectCache.oldestKey_cons (full_named h kind id value first holdest.1)
    intro other hother
    refine holdest.2 other (((frontOrder V first.1).perm _).mem_iff.mp ?_)
    rw [horder]
    exact mem_cons_of_mem _ hother
  rw [CacheRun.afterPut, setLocked_eq h, if_pos hfull, horder, hkey]

theorem untied_of_sound (hallowed : putAllowed fits kind id value = true)
    (hsound : ∀ order, CacheRun.Sound fits s (.put kind id value)
      (s.afterPut kind id value order)) : s.Untied fits (.put kind id value) := by
  unfold CacheRun.Untied
  rw [admitted_put fits hallowed]
  intro hfull a b ha hb
  by_contra hne
  have hevicts : ∀ entry other, ObjectCache.IsOldest (s.full kind id value).entries entry →
      other ∈ (s.full kind id value).entries → entry.1 ≠ other.1 →
        Later ((cacheKey kind id, s.now) :: s.uses) other.1 entry.1 := by
    intro entry other holdest hother hdiffer
    have hgoes := front_goes h holdest hfull
    refine (hsound (frontOrder V entry.1)).recent entry.1 ⟨⟨entry, ?_, rfl⟩, ?_⟩ other ?_
    · rw [admitted_put fits hallowed]
      exact holdest.1
    · intro next hnext
      rw [hgoes] at hnext
      simpa using (ObjectCache.mem_drop.mp hnext).2
    · rw [hgoes]
      exact ObjectCache.mem_drop.mpr ⟨hother, by simpa using Ne.symm hdiffer⟩
  exact (hevicts a b ha hb.1 hne).asymm (hevicts b a hb ha.1 (Ne.symm hne))

end Puts

/-! ## Runs -/

section Runs

variable (fits : Fits V)

/-- Step lemma: a call does what it should in each order just when no times are tied. -/
theorem sound_step_iff {s : CacheRun V} (h : s.Inv) (call : CacheCall V) :
    (∀ order s', s.step fits (call, order) = some s' → CacheRun.Sound fits s call s') ↔
      s.Untied fits call := by
  have hnone : admitted fits s call = [] → s.Untied fits call := by
    intro hnil
    rw [CacheRun.Untied, hnil]
    exact fun hfull => absurd hfull (Nat.not_lt_zero _)
  have hsame : s.cache.capacity = s.cache.capacity ∧ s.cache.ttl = s.cache.ttl := ⟨rfl, rfl⟩
  cases call with
  | put kind id value =>
    by_cases hallowed : putAllowed fits kind id value = true
    · constructor
      · intro hall
        refine untied_of_sound fits h hallowed fun order => hall order _ ?_
        exact (step_put fits order hallowed).mpr rfl
      · intro huntied order s' hstep
        rw [(step_put fits order hallowed).mp hstep]
        exact sound_put fits h order huntied hallowed
    · have hnil : admitted fits s (.put kind id value) = [] := if_neg hallowed
      refine iff_of_true ?_ (hnone hnil)
      intro order s' hstep
      have hinv' := inv_step fits h hstep
      rw [CacheRun.step] at hstep
      simp only [if_neg hallowed] at hstep
      cases hstep
      refine sound_of_nil fits hinv' hsame hnil ?_ ?_
      · intro kind' id' value' hcall
        cases hcall
        exact Bool.eq_false_iff.mpr hallowed
      · intro _ _ entry hmem _ _
        exact ⟨entry, hmem, rfl⟩
  | get kind id pause =>
    refine iff_of_true ?_ (hnone rfl)
    intro order s' hstep
    have hinv' := inv_step fits h hstep
    cases hstep
    rcases get_eq s pause kind id with ⟨entry, hmem, -, hcache⟩ | ⟨-, p, hcache, hp⟩
    · refine sound_of_nil fits hinv' (by rw [hcache]; exact hsame) rfl
        (fun _ _ _ h => by cases h) ?_
      intro kind' id' entry' hmem' _ _
      simp only [hcache, ObjectCache.mem_store]
      by_cases hkey : cacheKey kind' id' = cacheKey kind id
      · refine ⟨{ entry with seen := s.now + pause }, Or.inl (by rw [hkey]), ?_⟩
        rw [hkey] at hmem'
        have hlookup := ObjectCache.lookup_iff.mpr hmem'
        rw [Option.some.inj (hlookup.symm.trans (ObjectCache.lookup_iff.mpr hmem))]
      · exact ⟨entry', Or.inr ⟨hmem', hkey⟩, rfl⟩
    · refine sound_of_nil fits hinv' (by rw [hcache]; exact hsame) rfl
        (fun _ _ _ h => by cases h) ?_
      intro kind' id' entry' hmem' hexpired _
      simp only [hcache, ObjectCache.mem_drop]
      refine ⟨entry', ⟨hmem', ?_⟩, rfl⟩
      rw [Bool.eq_false_iff]
      intro hdrop
      rw [(hp _ hmem' hdrop).2] at hexpired
      cases hexpired
  | delete kind id =>
    refine iff_of_true ?_ (hnone rfl)
    intro order s' hstep
    have hinv' := inv_step fits h hstep
    cases hstep
    refine sound_of_nil fits hinv' hsame rfl (fun _ _ _ h => by cases h) ?_
    intro kind' id' entry hmem _ htouches
    exact ⟨entry, ObjectCache.mem_drop.mpr ⟨hmem, htouches⟩, rfl⟩
  | clear =>
    refine iff_of_true ?_ (hnone rfl)
    intro order s' hstep
    have hinv' := inv_step fits h hstep
    cases hstep
    refine sound_of_nil fits hinv' hsame rfl (fun _ _ _ h => by cases h) ?_
    intro kind' id' entry _ _ htouches
    cases htouches
  | wait duration =>
    refine iff_of_true ?_ (hnone rfl)
    intro order s' hstep
    have hinv' := inv_step fits h hstep
    cases hstep
    refine sound_of_nil fits hinv' hsame rfl (fun _ _ _ h => by cases h) ?_
    intro _ _ entry hmem _ _
    exact ⟨entry, hmem, rfl⟩

/-- A cache that has just been made. -/
def CacheRun.fresh (V : Type) (capacity ttl : Int) : CacheRun V :=
  { cache := newObjectCache V capacity ttl }

theorem inv_fresh (capacity ttl : Int) : (CacheRun.fresh V capacity ttl).Inv where
  ordered := ordered_nil 0
  used _ hentry := by cases hentry
  named _ hentry := by cases hentry
  bounded := Nat.zero_le _

/-- In every state reached, a call does what it should, whatever the order in which the table is
    ranged over, just when no times are tied when there is no room. -/
theorem cache_sound_iff {capacity ttl : Int} {calls : List (CacheCall V × RangeOrder V)}
    {s : CacheRun V}
    (hrun : Systems.run (CacheRun.step fits) (CacheRun.fresh V capacity ttl) calls = some s)
    (call : CacheCall V) :
    (∀ order s', s.step fits (call, order) = some s' → CacheRun.Sound fits s call s') ↔
      s.Untied fits call :=
  sound_step_iff fits (Systems.run_invariant (fun _ _ _ h hstep => inv_step fits h hstep)
    (inv_fresh capacity ttl) hrun) call

end Runs

/-! ## Two objects at one time -/

/-- Every text fits. -/
def anyText : Fits String := fun _ _ => true

/-- The table as it is listed. -/
def listed : RangeOrder String := ⟨id, fun _ => List.Perm.refl _⟩

/-- Room for one object, and one object in it. -/
def oneUser : CacheRun String := (CacheRun.fresh String 1 0).afterPut "user" "1" "first" listed

theorem run_oneUser : Systems.run (CacheRun.step anyText) (CacheRun.fresh String 1 0)
    [(.put "user" "1" "first", listed)] = some oneUser := by
  have hstep : (CacheRun.fresh String 1 0).step anyText (.put "user" "1" "first", listed) =
      some oneUser := (step_put anyText listed (by decide)).mpr rfl
  rfl

/-- The same, somewhat later. -/
def oneUserLater : CacheRun String := { oneUser with now := oneUser.now + 1 }

theorem oneUserLater_sound_iff :
    (∀ order s', oneUserLater.step anyText (.put "user" "2" "second", order) = some s' →
      CacheRun.Sound anyText oneUserLater (.put "user" "2" "second") s') ↔
        oneUserLater.Untied anyText (.put "user" "2" "second") := by
  have hrun : Systems.run (CacheRun.step anyText) (CacheRun.fresh String 1 0)
      ([(.put "user" "1" "first", listed)] ++ [(.wait 1, listed)]) = some oneUserLater := by
    rw [Systems.run_append, run_oneUser]
    rfl
  exact cache_sound_iff anyText hrun (.put "user" "2" "second")

/-- An object is put at the time of the last one, and is not there. -/
theorem second_user_evicted : ¬ ∀ (calls : List (CacheCall String × RangeOrder String))
    (s s' : CacheRun String) (call : CacheCall String) (order : RangeOrder String),
      Systems.run (CacheRun.step anyText) (CacheRun.fresh String 1 0) calls = some s →
        s.step anyText (call, order) = some s' → CacheRun.Sound anyText s call s' := by
  intro hall
  have hallowed : putAllowed anyText "user" "2" "second" = true := by decide
  have hsound := hall _ oneUser _ (.put "user" "2" "second") listed run_oneUser
    ((step_put anyText listed hallowed).mpr rfl)
  have hread := hsound.stored "user" "2" "second" rfl hallowed 0
    (oneUser.afterPut "user" "2" "second" listed).cache.ttl_pos
  exact absurd hread (by decide)

end Kryndel.Discord
