import Kryndel.Discord.Eviction
import Kryndel.Discord.Ingest

/-!
# Guilds that are deleted

When a guild is deleted, what is stored under its ID goes, and so do the objects that have its ID
in them. A channel or a thread that has come with the creation of its guild need not have it; it
stays then, and can still be read.
-/

namespace Kryndel.Discord

/-! ## The specification -/

/-- What should be gone with its guild cannot be read, at whatever time. -/
def GuildRun.NoneBack (s : GuildRun) : Prop :=
  ∀ kind id guild, s.belongs (cacheKey kind id) = .removedWith guild →
    ∀ now pause, (s.cache.get now pause kind id).2 = none

section Condition

variable (floatText : String → Option String)

/-- A channel or a thread that becomes part of a guild has the ID of the guild in it, as
    `deleteGuild` reads it; and an update that says nothing of a guild has no such field. -/
def Shows : CacheAction → Prop
  | .save kind _ item merge (.ofGuild guild) => kind = "channel" ∨ kind = "thread" →
    (∀ guildID ∈ guild, storedID floatText (fieldOf item "guild_id") = some guildID) ∧
      (merge = true → guild = none → (fieldOf item "guild_id").isNone = true)
  | _ => True

instance : DecidablePred (Shows floatText)
  | .save kind _ item merge (.ofGuild guild) =>
    inferInstanceAs (Decidable (kind = "channel" ∨ kind = "thread" →
      (∀ guildID ∈ guild, storedID floatText (fieldOf item "guild_id") = some guildID) ∧
        (merge = true → guild = none → (fieldOf item "guild_id").isNone = true)))
  | .save _ _ _ _ .untracked => isTrue trivial
  | .remove _ _ => isTrue trivial
  | .removeGuild _ => isTrue trivial

/-- The condition on a move. -/
def ShowsGuilds (_ : GuildRun) : GuildMove → Prop
  | .event name (.ok object) _ => ∀ action ∈ actions name object, Shows floatText action
  | _ => True

end Condition

/-! ## Fields -/

theorem beq_partialEquivalence : Keyed.PartialEquivalence (κ := String) (· == ·) where
  comm a b := Bool.beq_comm
  trans a b c hab hbc := by
    rw [eq_of_beq hab]
    exact hbc

theorem fieldOf_cons (key name : String) (value : JsonValue) (object : JsonObject) :
    fieldOf ((key, value) :: object) name = if key == name then some value
      else fieldOf object name :=
  Keyed.find_cons (key, value) object name

theorem fieldOf_setField (object : JsonObject) (key name : String) (value : JsonValue) :
    fieldOf (setField object key value) name = if key == name then some value
      else fieldOf object name :=
  Keyed.find_put beq_partialEquivalence object key name value

variable {update : JsonObject} {name : String}

theorem fieldOf_merge_none (existing : JsonObject) (h : fieldOf update name = none) :
    fieldOf (mergeFields existing update) name = fieldOf existing name := by
  induction update with
  | nil => rfl
  | cons field update ih =>
    rw [fieldOf_cons] at h
    split at h
    · cases h
    · next hne => rw [mergeFields, mergeField, fieldOf_setField, if_neg hne, ih h]

theorem fieldOf_merge_some (existing : JsonObject) {value : JsonValue}
    (h : fieldOf update name = some value) (hvalue : ∀ old, mergeValue old value = value) :
    fieldOf (mergeFields existing update) name = some value := by
  induction update with
  | nil => cases h
  | cons field update ih =>
    rw [fieldOf_cons] at h
    rw [mergeFields, mergeField, fieldOf_setField]
    split
    · next heq =>
      rw [if_pos heq] at h
      rw [Option.some.inj h, hvalue]
    · next hne =>
      rw [if_neg hne] at h
      exact ih h

theorem storedID_merge {floatText : String → Option String} (existing : JsonObject)
    {name id : String} (h : storedID floatText (fieldOf update name) = some id) :
    storedID floatText (fieldOf (mergeFields existing update) name) = some id := by
  cases hfield : fieldOf update name with
  | none =>
    rw [hfield] at h
    cases h
  | some value =>
    rw [fieldOf_merge_some existing hfield, ← hfield]
    · exact h
    · intro old
      rw [hfield] at h
      cases value with
      | obj fields => cases h
      | _ => rfl

/-! ## Keys -/

theorem toList_cacheKey (kind id : String) :
    (cacheKey kind id).toList = kind.toList ++ ':' :: id.toList := by
  rw [cacheKey, String.toList_append, String.toList_append, List.append_assoc]
  rfl

variable {kind : String}

theorem cut_cacheKey (h : ':' ∉ kind.toList) (id : String) :
    cut (cacheKey kind id) = some (kind, id) := by
  have hkind : ∀ c ∈ kind.toList, (c != ':') = true := by
    intro c hc
    rw [bne_iff_ne]
    rintro rfl
    exact h hc
  rw [cut, toList_cacheKey, if_pos (by simp), List.takeWhile_append_of_pos hkind,
    List.dropWhile_append_of_pos hkind]
  simp

theorem colon_not_mem (h : kind ∈ compositeKinds) : ':' ∉ kind.toList := by
  revert kind
  decide

/-- `deleteGuild` finds an entry by its key, or by the ID in its object. -/
def Findable (floatText : String → Option String) (guildID : String)
    (entry : String × CacheEntry JsonObject) : Prop :=
  (∃ kind ∈ compositeKinds, ∃ item, entry.1 = cacheKey kind (guildID ++ ":" ++ item)) ∨
    (∃ kind id, ':' ∉ kind.toList ∧ entry.1 = cacheKey kind id) ∧
      ObjectCache.hasGuild floatText guildID entry = true

variable {entry : String × CacheEntry JsonObject}

theorem ofGuild_of_findable {floatText : String → Option String} {guildID : String}
    (h : Findable floatText guildID entry) (channelIDs : List String) :
    ObjectCache.ofGuild floatText channelIDs guildID entry = true := by
  rcases h with ⟨kind, hkind, item, hkey⟩ | ⟨⟨kind, id, hcolon, hkey⟩, hguild⟩
  · have hprefix : (guildID ++ ":").toList.isPrefixOf (guildID ++ ":" ++ item).toList = true := by
      have hlist : (guildID ++ ":" ++ item).toList = (guildID ++ ":").toList ++ item.toList :=
        String.toList_append
      rw [List.isPrefixOf_iff_prefix, hlist]
      exact List.prefix_append _ _
    rw [ObjectCache.ofGuild, hkey, cut_cacheKey (colon_not_mem hkind), Option.elim_some]
    have hcontains : compositeKinds.contains kind = true := List.contains_iff_mem.mpr hkind
    simp only [hcontains, hprefix, Bool.and_self, Bool.or_true, Bool.true_or]
  · rw [ObjectCache.ofGuild, hkey, cut_cacheKey hcolon, Option.elim_some]
    simp [hguild]

/-! ## What the actions of an event save -/

/-- What is tracked is a channel or a thread, or it is stored under the ID of its guild. -/
def Tracked : CacheAction → Prop
  | .save kind id _ _ (.ofGuild guild) => kind = "channel" ∨ kind = "thread" ∨
    kind ∈ compositeKinds ∧ ∃ guildID item, guild = some guildID ∧ id = guildID ++ ":" ++ item
  | _ => True

variable {part : Part} {action : CacheAction} {value : Option JsonValue} {merge : Bool}

theorem mem_saveObject (h : action ∈ saveObject kind value merge part) :
    ∃ id item, action = .save kind id item merge part := by
  unfold saveObject at h
  split at h
  · cases h
  split at h
  · cases h
  · exact ⟨_, _, List.mem_singleton.mp h⟩

theorem tracked_untracked (h : action ∈ saveObject kind value merge .untracked) :
    Tracked action := by
  obtain ⟨id, item, rfl⟩ := mem_saveObject h
  trivial

theorem tracked_channel (hkind : kind = "channel" ∨ kind = "thread") {guild : Option String}
    (h : action ∈ saveObject kind value merge (.ofGuild guild)) : Tracked action := by
  obtain ⟨id, item, rfl⟩ := mem_saveObject h
  rw [Tracked, ← or_assoc]
  exact Or.inl hkind

theorem compositeID_eq {guild item : Option JsonValue} {guildID id : String}
    (h : compositeID guild item = some (guildID, id)) :
    ∃ itemID, id = guildID ++ ":" ++ itemID := by
  unfold compositeID at h
  split at h
  · cases h
    exact ⟨_, rfl⟩
  · cases h

theorem tracked_composite (hkind : kind ∈ compositeKinds) {guild value : Option JsonValue}
    (h : action ∈ saveComposite kind guild value merge) : Tracked action := by
  unfold saveComposite at h
  split at h
  · cases h
  split at h
  · cases h
  · next guildID id hid =>
    obtain ⟨itemID, rfl⟩ := compositeID_eq hid
    rw [List.mem_singleton.mp h]
    exact Or.inr (Or.inr ⟨hkind, guildID, itemID, rfl, rfl⟩)

theorem tracked_remove (h : action ∈ deleteObject kind value) : Tracked action := by
  unfold deleteObject at h
  split at h
  · cases h
  · rw [List.mem_singleton.mp h]
    trivial

theorem composite_of_table : ∀ table ∈ guildTables, ¬ table.2 = "member" →
    ¬ (table.2 = "channel" ∨ table.2 = "thread") →
      ¬ (table.2 = "stage_instance" ∨ table.2 = "scheduled_event") →
        table.2 ∈ compositeKinds := by
  decide

theorem tracked_guildItem {guild : Option JsonValue} {table : String × String}
    (htable : table ∈ guildTables) {item : JsonValue} (h : action ∈ guildItem guild table.2 item) :
    Tracked action := by
  unfold guildItem at h
  split at h
  · next hmember =>
    rcases List.mem_append.mp h with h | h
    · exact tracked_composite (by rw [hmember]; decide) h
    · exact tracked_untracked h
  split at h
  · next hchannel => exact tracked_channel hchannel h
  split at h
  · exact tracked_untracked h
  · next hmember hchannel hstage =>
    exact tracked_composite (composite_of_table table htable hmember hchannel hstage) h

variable {object : JsonObject}

theorem tracked_member (h : action ∈ saveMember object merge) : Tracked action := by
  unfold saveMember at h
  split at h
  · rcases List.mem_append.mp h with h | h
    · exact tracked_composite (by decide) h
    · exact tracked_untracked h
  · cases h

theorem tracked_voiceState (h : action ∈ saveVoiceState object) : Tracked action := by
  unfold saveVoiceState at h
  split at h
  · cases h
  · next guildID id hid =>
    split at h
    · rw [List.mem_singleton.mp h]
      trivial
    · obtain ⟨itemID, rfl⟩ := compositeID_eq hid
      rw [List.mem_singleton.mp h]
      exact Or.inr (Or.inr ⟨by decide, guildID, itemID, rfl, rfl⟩)

theorem actions_tracked {event : String} (h : action ∈ actions event object) : Tracked action := by
  unfold actions at h
  split at h
  · exact tracked_untracked h
  · rcases List.mem_append.mp h with h | h
    · exact tracked_untracked h
    · obtain ⟨table, htable, h⟩ := List.mem_flatMap.mp h
      obtain ⟨item, -, h⟩ := List.mem_flatMap.mp h
      exact tracked_guildItem htable h
  · exact tracked_untracked h
  · split at h
    · cases h
    · obtain ⟨id, -, rfl⟩ := List.mem_map.mp h
      trivial
  · exact tracked_channel (Or.inl rfl) h
  · exact tracked_channel (Or.inl rfl) h
  · exact tracked_remove h
  · exact tracked_channel (Or.inr rfl) h
  · exact tracked_channel (Or.inr rfl) h
  · exact tracked_remove h
  · exact tracked_untracked h
  · exact tracked_untracked h
  · exact tracked_remove h
  · obtain ⟨id, -, h⟩ := List.mem_flatMap.mp h
    exact tracked_remove h
  · exact tracked_member h
  · exact tracked_member h
  · split at h
    · cases h
    · obtain ⟨member, -, h⟩ := List.mem_flatMap.mp h
      rcases List.mem_append.mp h with h | h
      · exact tracked_composite (by decide) h
      · exact tracked_untracked h
  · split at h
    · cases h
    · rw [List.mem_singleton.mp h]
      trivial
  · exact tracked_untracked h
  · exact tracked_voiceState h
  · exact tracked_composite (by decide) h
  · exact tracked_composite (by decide) h
  · split at h
    · cases h
    · rw [List.mem_singleton.mp h]
      trivial
  · cases h

/-! ## Entries after a call -/

namespace ObjectCache

variable {V : Type} {cache : ObjectCache V}

variable {order : RangeOrder V}

theorem mem_of_mem_makeRoom {rounds : Nat} {entry : String × CacheEntry V}
    (h : entry ∈ (makeRoom order rounds cache).entries) : entry ∈ cache.entries := by
  induction rounds generalizing cache with
  | zero => exact h
  | succ rounds ih =>
    rw [makeRoom] at h
    split at h
    · exact (mem_drop.mp (ih h)).1
    · exact h

theorem mem_setLocked {now : Nat} {kind id : String} {value : V} {entry : String × CacheEntry V}
    (h : entry ∈ (cache.setLocked order now kind id value).entries) :
    entry = (cacheKey kind id, ⟨value, now⟩) ∨ entry ∈ cache.entries ∧
      entry.1 ≠ cacheKey kind id := by
  rcases mem_enter.mp (mem_of_mem_makeRoom h) with rfl | ⟨⟨hmem, -⟩, hne⟩
  · exact Or.inl rfl
  · exact Or.inr ⟨hmem, hne⟩

theorem mem_of_live {now : Nat} {key : String} {entry : CacheEntry V}
    (h : cache.live now key = some entry) : (key, entry) ∈ cache.entries := by
  rw [live, Option.filter_eq_some_iff] at h
  exact lookup_iff.mp h.1

end ObjectCache

/-- What is stored when an object is saved. -/
def savedValue (cache : ObjectCache JsonObject) (now : Nat) (key : String) (item : JsonObject)
    (merge : Bool) : JsonObject :=
  if merge then (cache.live now key).elim item fun previous => mergeFields previous.value item
  else item

variable {now : Nat} {item : JsonObject}

theorem mem_save {codec : JsonCodec} {cache : ObjectCache JsonObject} {timing : ActionTiming}
    {kind id : String}
    (h : entry ∈ (cache.perform codec now timing (.save kind id item merge part)).1.entries) :
    entry.1 = cacheKey kind id ∧
        entry.2.value = savedValue cache now (cacheKey kind id) item merge ∨
      entry ∈ cache.entries ∧ entry.1 ≠ cacheKey kind id := by
  have hdelete : entry ∈ (cache.delete kind id).entries →
      entry ∈ cache.entries ∧ entry.1 ≠ cacheKey kind id := by
    intro hmem
    obtain ⟨hold, hne⟩ := ObjectCache.mem_drop.mp hmem
    exact ⟨hold, by simpa using hne⟩
  rw [ObjectCache.perform] at h
  split at h
  · exact Or.inr (hdelete h)
  split at h
  · next hmerge =>
    simp only at h
    split at h
    · exact Or.inr (hdelete h)
    · rcases ObjectCache.mem_setLocked h with rfl | hold
      · left
        rw [savedValue, if_pos hmerge]
        exact ⟨rfl, rfl⟩
      · exact Or.inr hold
  · next hmerge =>
    rcases ObjectCache.mem_setLocked h with rfl | hold
    · left
      rw [savedValue, if_neg hmerge]
      exact ⟨rfl, rfl⟩
    · exact Or.inr hold

/-! ## The invariant -/

/-- What should be gone is not there, and what belongs to a guild can be found. -/
structure GuildRun.Inv (floatText : String → Option String) (s : GuildRun) : Prop where
  gone : ∀ key guild, s.belongs key = .removedWith guild →
    ∀ entry ∈ s.cache.entries, entry.1 ≠ key
  found : ∀ entry ∈ s.cache.entries, ∀ guild, s.belongs entry.1 = .to guild →
    Findable floatText guild entry

section Steps

variable {codec : JsonCodec} {s : GuildRun}

theorem inv_of_subset {belongs : String → Belongs} {cache : ObjectCache JsonObject}
    (h : s.Inv codec.floatText)
    (hbelongs : ∀ key, belongs key = s.belongs key ∨ belongs key = .nowhere)
    (hsub : ∀ entry ∈ cache.entries, ∃ old ∈ s.cache.entries, old.1 = entry.1 ∧
      old.2.value = entry.2.value) :
    GuildRun.Inv codec.floatText { cache, now, belongs } where
  gone key guild hkey entry hentry := by
    rcases hbelongs key with hsame | hnowhere
    · obtain ⟨old, hold, heq, -⟩ := hsub entry hentry
      rw [← heq]
      exact h.gone key guild (hsame.symm.trans hkey) old hold
    · cases hnowhere.symm.trans hkey
  found entry hentry guild hto := by
    rcases hbelongs entry.1 with hsame | hnowhere
    · obtain ⟨old, hold, heq, hvalue⟩ := hsub entry hentry
      have hfound := h.found old hold guild (by rw [heq, ← hsame]; exact hto)
      unfold Findable ObjectCache.hasGuild at hfound ⊢
      rwa [heq, hvalue] at hfound
    · cases hnowhere.symm.trans hto

variable {isLive : Bool} {old : Belongs}

theorem joined_fresh (guild : Option String) (h : ¬ (merge && isLive) = true) :
    GuildRun.joined old isLive merge (.ofGuild guild) = guild.elim .nowhere .to := if_neg h

theorem joined_eq_removed {guild : String}
    (h : GuildRun.joined old isLive merge part = .removedWith guild) :
    isLive = true ∧ old = .removedWith guild := by
  cases part with
  | untracked => cases h
  | ofGuild new =>
    by_cases hlive : (merge && isLive) = true
    · obtain ⟨rfl, rfl⟩ := Bool.and_eq_true_iff.mp hlive
      refine ⟨rfl, ?_⟩
      cases new <;> cases old <;> first | exact h | cases h
    · rw [joined_fresh new hlive] at h
      cases new <;> cases h

theorem joined_eq_to {guild : String} (h : GuildRun.joined old isLive merge part = .to guild) :
    part = .ofGuild guild ∨
      part = .ofGuild none ∧ merge = true ∧ isLive = true ∧ old = .to guild := by
  cases part with
  | untracked => cases h
  | ofGuild new =>
    by_cases hlive : (merge && isLive) = true
    · obtain ⟨rfl, rfl⟩ := Bool.and_eq_true_iff.mp hlive
      cases new with
      | none =>
        right
        refine ⟨rfl, rfl, rfl, ?_⟩
        cases old <;> exact h
      | some new =>
        left
        cases old <;> cases h <;> rfl
    · left
      rw [joined_fresh new hlive] at h
      cases new <;> cases h
      rfl

theorem storedID_saved {floatText : String → Option String} {cache : ObjectCache JsonObject}
    {key guild : String} (merge : Bool)
    (h : storedID floatText (fieldOf item "guild_id") = some guild) :
    storedID floatText (fieldOf (savedValue cache now key item merge) "guild_id") =
      some guild := by
  rw [savedValue]
  split
  · cases cache.live now key with
    | none => exact h
    | some previous => exact storedID_merge previous.value h
  · exact h

theorem inv_save (h : s.Inv codec.floatText) (timing : ActionTiming) {kind id : String}
    (htracked : Tracked (.save kind id item merge part))
    (hshows : Shows codec.floatText (.save kind id item merge part)) :
    (s.act codec timing (.save kind id item merge part)).Inv codec.floatText where
  gone key guild hkey entry hentry := by
    change Function.update s.belongs _ _ key = _ at hkey
    by_cases hsame : key = cacheKey kind id
    · subst hsame
      rw [Function.update_self] at hkey
      obtain ⟨hlive, hold⟩ := joined_eq_removed hkey
      obtain ⟨previous, hprevious⟩ := Option.isSome_iff_exists.mp hlive
      exact absurd rfl (h.gone _ guild hold _ (ObjectCache.mem_of_live hprevious))
    · rw [Function.update_of_ne hsame] at hkey
      rcases mem_save hentry with ⟨heq, -⟩ | ⟨hmem, -⟩
      · rw [heq]
        exact Ne.symm hsame
      · exact h.gone key guild hkey entry hmem
  found entry hentry guild hto := by
    change Function.update s.belongs _ _ entry.1 = _ at hto
    rcases mem_save hentry with ⟨heq, hvalue⟩ | ⟨hmem, hne⟩
    · rw [heq, Function.update_self] at hto
      rcases joined_eq_to hto with rfl | ⟨rfl, hmerge, hlive, hold⟩
      · rcases or_assoc.mpr htracked with hchannel | ⟨hkind, guildID, itemID, hguild, rfl⟩
        · have hcolon : ':' ∉ kind.toList := by
            rcases hchannel with rfl | rfl <;> decide
          refine Or.inr ⟨⟨kind, id, hcolon, heq⟩, ?_⟩
          rw [ObjectCache.hasGuild, hvalue, beq_iff_eq]
          exact storedID_saved merge ((hshows hchannel).1 guild rfl)
        · cases hguild
          exact Or.inl ⟨kind, hkind, itemID, heq⟩
      · rcases or_assoc.mpr htracked with hchannel | ⟨-, guildID, itemID, hguild, -⟩
        · -- The update says nothing of a guild, so that what was there before is kept.
          obtain ⟨previous, hprevious⟩ := Option.isSome_iff_exists.mp hlive
          have hfound := h.found _ (ObjectCache.mem_of_live hprevious) guild hold
          have hnone := Option.isNone_iff_eq_none.mp ((hshows hchannel).2 hmerge rfl)
          unfold Findable ObjectCache.hasGuild at hfound ⊢
          rw [heq, hvalue, savedValue, if_pos hmerge, hprevious, Option.elim_some,
            fieldOf_merge_none _ hnone]
          exact hfound
        · cases hguild
    · rw [Function.update_of_ne hne] at hto
      exact h.found entry hmem guild hto

theorem inv_act (h : s.Inv codec.floatText) (timing : ActionTiming) (htracked : Tracked action)
    (hshows : Shows codec.floatText action) :
    (s.act codec timing action).Inv codec.floatText := by
  cases action with
  | save kind id item merge part => exact inv_save h timing htracked hshows
  | remove kind id =>
    refine inv_of_subset h (fun _ => Or.inl rfl) ?_
    intro entry hentry
    exact ⟨entry, (ObjectCache.mem_drop.mp hentry).1, rfl, rfl⟩
  | removeGuild guild =>
    have hmem : ∀ entry ∈ (s.cache.deleteGuild codec.floatText guild).entries,
        entry ∈ s.cache.entries ∧ s.belongs entry.1 ≠ .to guild := by
      intro entry hentry
      obtain ⟨hold, hkept⟩ := ObjectCache.mem_drop.mp hentry
      refine ⟨hold, fun hto => ?_⟩
      rw [ofGuild_of_findable (h.found entry hold guild hto)] at hkept
      cases hkept
    exact {
      gone := by
        intro key guild' hkey entry hentry heq
        obtain ⟨hold, hnot⟩ := hmem entry hentry
        change GuildRun.remove guild (s.belongs key) = _ at hkey
        rw [GuildRun.remove] at hkey
        split at hkey
        · next hto => exact hnot (heq ▸ hto)
        · exact h.gone key guild' hkey entry hold heq
      found := by
        intro entry hentry guild' hto
        obtain ⟨hold, -⟩ := hmem entry hentry
        change GuildRun.remove guild (s.belongs entry.1) = _ at hto
        rw [GuildRun.remove] at hto
        split at hto
        · cases hto
        · exact h.found entry hold guild' hto }

theorem inv_handle (h : s.Inv codec.floatText)
    (hshows : ∀ action ∈ actions name object, Shows codec.floatText action)
    (timings : List ActionTiming) :
    (s.handle codec name object timings).Inv codec.floatText := by
  have hfold : ∀ (entries : List (CacheAction × ActionTiming)) (s : GuildRun),
      s.Inv codec.floatText → (∀ entry ∈ entries, entry.1 ∈ actions name object) →
        (entries.foldl (fun s entry => s.act codec entry.2 entry.1) s).Inv codec.floatText := by
    intro entries
    induction entries with
    | nil => exact fun s h _ => h
    | cons entry entries ih =>
      intro s h hentries
      have haction := hentries entry List.mem_cons_self
      exact ih _ (inv_act h entry.2 (actions_tracked haction) (hshows _ haction))
        fun other hother => hentries other (List.mem_cons_of_mem _ hother)
  have hentries : ∀ entry ∈ (actions name object).zip timings, entry.1 ∈ actions name object :=
    fun entry hentry => (List.of_mem_zip hentry).1
  rw [GuildRun.handle]
  split
  · refine hfold _ _ ?_ hentries
    refine inv_of_subset h (fun key => ?_) (fun entry hentry => ⟨entry, hentry, rfl, rfl⟩)
    rw [GuildRun.create]
    split
    · exact Or.inr rfl
    · exact Or.inl rfl
  · exact hfold _ _ h hentries

theorem guilds_step {s' : GuildRun} {m : GuildMove} (h : s.Inv codec.floatText)
    (hshows : ShowsGuilds codec.floatText s m) (hstep : s.step codec m = some s') :
    s'.Inv codec.floatText := by
  cases m with
  | event name payload timings =>
    cases payload with
    | error text =>
      cases hstep
      exact h
    | ok object =>
      rw [GuildRun.step] at hstep
      split at hstep
      · cases hstep
        exact inv_handle h hshows timings
      · cases hstep
  | read kind id pause =>
    cases hstep
    refine inv_of_subset h (fun _ => Or.inl rfl) ?_
    intro entry hentry
    rcases get_eq { cache := s.cache, now := s.now } pause kind id with
      ⟨old, hold, -, hcache⟩ | ⟨-, p, hcache, -⟩
    · rw [hcache] at hentry
      rcases ObjectCache.mem_store.mp hentry with rfl | ⟨hentry, -⟩
      · exact ⟨_, hold, rfl, rfl⟩
      · exact ⟨entry, hentry, rfl, rfl⟩
    · rw [hcache] at hentry
      exact ⟨entry, (ObjectCache.mem_drop.mp hentry).1, rfl, rfl⟩
  | wait duration =>
    cases hstep
    exact ⟨h.gone, h.found⟩

theorem noneBack_of_inv (h : s.Inv codec.floatText) : s.NoneBack := by
  intro kind id guild hkey now pause
  have hnone : s.cache.entries.lookup (cacheKey kind id) = none := by
    rw [Option.eq_none_iff_forall_not_mem]
    intro entry hentry
    exact h.gone _ guild hkey _ (ObjectCache.lookup_iff.mp hentry) rfl
  rw [get_none hnone]

/-- A cache that has just been made. -/
def GuildRun.fresh (capacity ttl : Int) : GuildRun :=
  { cache := newObjectCache JsonObject capacity ttl }

end Steps

/-! ## A guild with one channel -/

/-- A codec for objects without numbers. -/
def noNumbers : JsonCodec := ⟨List.length, fun _ => none⟩

/-- A channel, with the guild in it or without. -/
def someChannel (withGuild : Bool) : JsonValue :=
  .obj (("id", .str "101") :: if withGuild then [("guild_id", .str "100")] else [])

/-- An action without delays, in the order of the list. -/
def listedTiming : ActionTiming := { order := ⟨id, fun _ => List.Perm.refl _⟩ }

/-- A guild comes with a channel, and is deleted. -/
def createAndDelete (withGuild : Bool) : List GuildMove :=
  [.event "GUILD_CREATE" (.ok [("id", .str "100"), ("channels", .arr [someChannel withGuild])])
      [listedTiming, listedTiming],
    .event "GUILD_DELETE" (.ok [("id", .str "100")]) [listedTiming]]

/-- The cache after that. -/
def afterDelete (withGuild : Bool) : GuildRun :=
  let created := (GuildRun.fresh 8 0).handle noNumbers "GUILD_CREATE"
    [("id", .str "100"), ("channels", .arr [someChannel withGuild])] [listedTiming, listedTiming]
  created.handle noNumbers "GUILD_DELETE" [("id", .str "100")] [listedTiming]

theorem createAndDelete_run (withGuild : Bool) : Systems.run (GuildRun.step noNumbers)
    (GuildRun.fresh 8 0) (createAndDelete withGuild) = some (afterDelete withGuild) := by
  cases withGuild <;> rfl

end Kryndel.Discord
