import Kryndel.Lsp.Server

/-!
# What the client holds

The server replaces the list of a URI by what one document's analysis says of it. A list that
another document's analysis has put there is erased by that, and one that no analysis puts
there any more stays. The client is right after a notification when neither happens.
-/

namespace Kryndel.Lsp

open List

/-! ## Packets -/

theorem foldl_receive (packets : List Packet) (client : String → List Published) (uri : String) :
    ((∀ p ∈ packets, p.uri ≠ uri) ∧ packets.foldl receive client uri = client uri) ∨
      ∃ front p rest, packets = front ++ p :: rest ∧ p.uri = uri ∧ (∀ q ∈ rest, q.uri ≠ uri) ∧
        packets.foldl receive client uri = p.diagnostics := by
  induction packets generalizing client with
  | nil => exact Or.inl ⟨by simp, rfl⟩
  | cons packet packets ih =>
    rw [foldl_cons]
    rcases ih (receive client packet) with ⟨hnone, hkeep⟩ | ⟨front, p, rest, rfl, hp, hrest, heq⟩
    · by_cases huri : packet.uri = uri
      · refine Or.inr ⟨[], packet, packets, rfl, huri, hnone, ?_⟩
        rw [hkeep, receive, huri, Function.update_self]
      · refine Or.inl ⟨forall_mem_cons.mpr ⟨huri, hnone⟩, ?_⟩
        rw [hkeep, receive, Function.update_of_ne (Ne.symm huri)]
    · exact Or.inr ⟨packet :: front, p, rest, rfl, hp, hrest, heq⟩

section Validation

variable {Disk : Type} (host : Host Disk) (around : Surroundings Disk) (docs : Documents)

/-- The open documents in the order of their URIs. -/
def sorted : List Document := docs.entries.mergeSort fun a b => decide (a.uri ≤ b.uri)

variable {doc : Document}

theorem mem_sorted : doc ∈ sorted docs ↔ doc ∈ docs.entries :=
  mem_mergeSort

theorem sorted_pairwise : (sorted docs).Pairwise fun a b => a.uri < b.uri := by
  have hle : (sorted docs).Pairwise fun a b => decide (a.uri ≤ b.uri) = true := by
    apply pairwise_mergeSort
    · intro a b c hab hbc
      simp only [decide_eq_true_eq] at hab hbc ⊢
      exact le_trans hab hbc
    · intro a b
      simp only [Bool.or_eq_true, decide_eq_true_eq]
      exact le_total a.uri b.uri
  have hne : (sorted docs).Pairwise fun a b => a.uri ≠ b.uri := by
    have hnodup : ((sorted docs).map (·.uri)).Nodup :=
      ((mergeSort_perm _ _).map _).nodup_iff.mpr docs.distinct
    exact pairwise_map.mp hnodup
  refine (hle.and hne).imp ?_
  rintro a b ⟨hab, hne⟩
  exact lt_of_le_of_ne (of_decide_eq_true hab) hne

theorem Documents.find_of_mem (h : doc ∈ docs.entries) :
    docs.find doc.uri = some doc := by
  obtain ⟨other, hother⟩ : ∃ other, docs.find doc.uri = some other := by
    rw [← Option.isSome_iff_exists, Documents.find, find?_isSome]
    exact ⟨doc, h, beq_self_eq_true _⟩
  have hfound := find?_some hother
  have huri : other.uri = doc.uri := beq_iff_eq.mp hfound
  have hmem : other ∈ docs.entries := mem_of_find?_eq_some hother
  rw [hother, inj_on_of_nodup_map docs.distinct hmem h huri]

theorem validateWorkspace_eq :
    validateWorkspace host around docs = (sorted docs).map (validateDocument host around docs) := by
  have huris : ((docs.entries.map (·.uri)).mergeSort fun a b => decide (a ≤ b)) =
      (sorted docs).map (·.uri) :=
    (map_mergeSort (r := fun a b : Document => decide (a.uri ≤ b.uri))
      (s := fun a b => decide (a ≤ b)) (f := (·.uri)) (l := docs.entries)
      fun _ _ _ _ => rfl).symm
  rw [validateWorkspace, huris, filterMap_map]
  have hfind : ∀ doc ∈ sorted docs, (validate host around docs ∘ (·.uri)) doc =
      some (validateDocument host around docs doc) := by
    intro doc hdoc
    rw [Function.comp_apply, validate, docs.find_of_mem ((mem_sorted docs).mp hdoc),
      Option.map_some]
  rw [filterMap_congr hfind]
  exact congrFun filterMap_eq_map' _

variable {packet : Packet}

theorem report_single (h : report host around docs doc = some packet) :
    ∃ d, packet.diagnostics = [d] := by
  obtain ⟨d, -, rfl⟩ := Option.map_eq_some_iff.mp h
  rw [publishDiagnostic]
  split
  · split <;> exact ⟨_, rfl⟩
  · exact ⟨_, rfl⟩

/-- Some analysis of an open document reports on a URI. -/
def Reported (uri : String) : Prop := ∃ packet ∈ reports host around docs, packet.uri = uri

theorem mem_reports : packet ∈ reports host around docs ↔
    ∃ doc ∈ docs.entries, report host around docs doc = some packet :=
  mem_filterMap

/-- A document is open and its own analysis finds no error. -/
def Clean (uri : String) : Prop :=
  ∃ doc ∈ docs.entries, doc.uri = uri ∧ report host around docs doc = none

/-- A validation settles the URIs: what analyses report on one of them is the same; a document
    without an error is followed by one whose analysis reports on it, if any does; and a URI
    with a list that is reported on no more is cleared. -/
structure Validates (cleared latest : List Packet) : Prop where
  agree : ∀ p ∈ reports host around docs, ∀ q ∈ reports host around docs, p.uri = q.uri →
    p.diagnostics = q.diagnostics
  kept : ∀ uri, Clean host around docs uri → Reported host around docs uri →
    ∃ doc ∈ docs.entries, uri < doc.uri ∧
      ∃ packet, report host around docs doc = some packet ∧ packet.uri = uri
  fresh : ∀ p ∈ latest, Reported host around docs p.uri ∨ Clean host around docs p.uri ∨
    ∃ q ∈ cleared, q.uri = p.uri

/-- The client holds at each URI what some analyses report on it. -/
def Holds (client : String → List Published) (packets : List Packet) : Prop :=
  ∀ uri d, d ∈ client uri ↔ ∃ packet ∈ packets, packet.uri = uri ∧ d ∈ packet.diagnostics

variable {host around docs}

theorem mem_validateWorkspace :
    packet ∈ validateWorkspace host around docs ↔
      ∃ doc ∈ docs.entries, validateDocument host around docs doc = packet := by
  rw [validateWorkspace_eq, mem_map]
  simp only [mem_sorted]

theorem validateDocument_of_report (h : report host around docs doc = some packet) :
    validateDocument host around docs doc = packet := by
  rw [validateDocument, h]

theorem validateDocument_of_clean (h : report host around docs doc = none) :
    validateDocument host around docs doc =
      { uri := doc.uri, version := some doc.version, diagnostics := [] } := by
  rw [validateDocument, h]

theorem published_iff (uri : String) :
    (∃ packet ∈ validateWorkspace host around docs, packet.uri = uri) ↔
      Reported host around docs uri ∨ Clean host around docs uri := by
  constructor
  · rintro ⟨packet, hpacket, huri⟩
    obtain ⟨doc, hdoc, rfl⟩ := mem_validateWorkspace.mp hpacket
    cases hreport : report host around docs doc with
    | none =>
      rw [validateDocument_of_clean hreport] at huri
      exact Or.inr ⟨doc, hdoc, huri, hreport⟩
    | some packet =>
      rw [validateDocument_of_report hreport] at huri
      exact Or.inl ⟨packet, (mem_reports host around docs).mpr ⟨doc, hdoc, hreport⟩, huri⟩
  · rintro (⟨packet, hpacket, huri⟩ | ⟨doc, hdoc, huri, hreport⟩)
    · obtain ⟨doc, hdoc, hreport⟩ := (mem_reports host around docs).mp hpacket
      exact ⟨packet, mem_validateWorkspace.mpr ⟨doc, hdoc, validateDocument_of_report hreport⟩,
        huri⟩
    · refine ⟨_, mem_validateWorkspace.mpr ⟨doc, hdoc, validateDocument_of_clean hreport⟩, huri⟩

theorem last_packet {front rest : List Packet} {p : Packet}
    (h : validateWorkspace host around docs = front ++ p :: rest)
    (hrest : ∀ q ∈ rest, q.uri ≠ p.uri) :
    ∃ doc ∈ docs.entries, validateDocument host around docs doc = p ∧
      ∀ doc' ∈ docs.entries, doc.uri < doc'.uri →
        (validateDocument host around docs doc').uri ≠ p.uri := by
  rw [validateWorkspace_eq] at h
  obtain ⟨docs₁, docs₂, hsplit, hfront, hlast⟩ := map_eq_append_iff.mp h
  obtain ⟨doc, docs₃, rfl, hp, hdocs₃⟩ := map_eq_cons_iff.mp hlast
  have hpairwise := sorted_pairwise docs
  rw [hsplit, pairwise_append] at hpairwise
  refine ⟨doc, ?_, hp, ?_⟩
  · rw [← mem_sorted, hsplit]
    simp
  · intro doc' hdoc' hlt
    rw [← mem_sorted, hsplit] at hdoc'
    rcases mem_append.mp hdoc' with hbefore | hafter
    · exact absurd (hpairwise.2.2 doc' hbefore doc (by simp)) (lt_asymm hlt)
    · rcases mem_cons.mp hafter with rfl | hafter
      · exact absurd hlt (lt_irrefl _)
      · refine hrest _ ?_
        rw [← hdocs₃]
        exact mem_map_of_mem hafter

theorem mem_cleared {cleared : List Packet} (hempty : ∀ p ∈ cleared, p.diagnostics = [])
    (client : String → List Published) (uri : String) (d : Published) :
    d ∈ cleared.foldl receive client uri ↔ d ∈ client uri ∧ ∀ p ∈ cleared, p.uri ≠ uri := by
  rcases foldl_receive cleared client uri with ⟨hnone, hkeep⟩ | ⟨front, p, rest, rfl, hp, -, heq⟩
  · rw [hkeep]
    exact (and_iff_left hnone).symm
  · have hmem : p ∈ front ++ p :: rest := by simp
    rw [heq, hempty p hmem]
    constructor
    · intro hd
      cases hd
    · rintro ⟨-, hall⟩
      exact absurd hp (hall p hmem)

theorem held_of_published (client : String → List Published) {uri : String}
    (h : Reported host around docs uri ∨ Clean host around docs uri) :
    ∃ doc ∈ docs.entries, (validateDocument host around docs doc).uri = uri ∧
      (validateWorkspace host around docs).foldl receive client uri =
        (validateDocument host around docs doc).diagnostics ∧
      ∀ doc' ∈ docs.entries, doc.uri < doc'.uri →
        (validateDocument host around docs doc').uri ≠ uri := by
  obtain ⟨packet, hpacket, huri⟩ := (published_iff uri).mpr h
  rcases foldl_receive (validateWorkspace host around docs) client uri with
    ⟨hnone, -⟩ | ⟨front, p, rest, hsplit, hp, hrest, heq⟩
  · exact absurd huri (hnone packet hpacket)
  · subst hp
    obtain ⟨doc, hdoc, rfl, hlast⟩ := last_packet hsplit hrest
    exact ⟨doc, hdoc, rfl, heq, hlast⟩

theorem held_of_not_published {client : String → List Published} {uri : String}
    (h : ¬ (Reported host around docs uri ∨ Clean host around docs uri)) :
    (validateWorkspace host around docs).foldl receive client uri = client uri := by
  rw [← published_iff] at h
  rcases foldl_receive (validateWorkspace host around docs) client uri with
    ⟨-, hkeep⟩ | ⟨front, p, rest, hsplit, hp, -, -⟩
  · exact hkeep
  · exact absurd ⟨p, by simp [hsplit], hp⟩ h

section Step

variable {client : String → List Published} {latest cleared : List Packet}

theorem Validates.holds (h : Validates host around docs cleared latest)
    (hold : Holds client latest) (hempty : ∀ p ∈ cleared, p.diagnostics = []) :
    Holds ((validateWorkspace host around docs).foldl receive (cleared.foldl receive client))
      (reports host around docs) := by
  intro uri d
  by_cases hpublished : Reported host around docs uri ∨ Clean host around docs uri
  · obtain ⟨doc, hdoc, huri, hheld, hlast⟩ := held_of_published _ hpublished
    rw [hheld]
    cases hreport : report host around docs doc with
    | some packet =>
      -- The last packet is a report, and all reports on the URI agree with it.
      rw [validateDocument_of_report hreport] at huri ⊢
      have hmem := (mem_reports host around docs).mpr ⟨doc, hdoc, hreport⟩
      constructor
      · exact fun hd => ⟨packet, hmem, huri, hd⟩
      · rintro ⟨packet', hmem', huri', hd⟩
        rwa [h.agree packet hmem packet' hmem' (huri.trans huri'.symm)]
    | none =>
      -- The last packet is empty, so nothing is reported on the URI.
      rw [validateDocument_of_clean hreport] at huri ⊢
      constructor
      · intro hd
        cases hd
      · rintro ⟨packet, hmem, huri', -⟩
        obtain ⟨doc', hdoc', hlt, packet', hreport', huri''⟩ :=
          h.kept uri ⟨doc, hdoc, huri, hreport⟩ ⟨packet, hmem, huri'⟩
        rw [← huri] at hlt
        refine absurd ?_ (hlast doc' hdoc' hlt)
        rw [validateDocument_of_report hreport', huri'']
  · rw [held_of_not_published hpublished, mem_cleared hempty, hold uri d]
    constructor
    · rintro ⟨⟨packet, hmem, huri, -⟩, hcleared⟩
      rcases h.fresh packet hmem with hreported | hclean | ⟨q, hq, hquri⟩
      · exact absurd (Or.inl (huri ▸ hreported)) hpublished
      · exact absurd (Or.inr (huri ▸ hclean)) hpublished
      · exact absurd (hquri.trans huri) (hcleared q hq)
    · rintro ⟨packet, hmem, huri, -⟩
      exact absurd (Or.inl ⟨packet, hmem, huri⟩) hpublished

/-- A validation that makes the client right settles the URIs. -/
theorem Validates.of_holds (hold : Holds client latest)
    (hsingle : ∀ p ∈ latest, ∃ d, p.diagnostics = [d])
    (hempty : ∀ p ∈ cleared, p.diagnostics = [])
    (h : Holds ((validateWorkspace host around docs).foldl receive (cleared.foldl receive client))
      (reports host around docs)) : Validates host around docs cleared latest where
  agree := by
    -- The last packet for the URI has one diagnostic, which both reports have.
    have hone : ∀ p ∈ reports host around docs, (validateWorkspace host around docs).foldl receive
        (cleared.foldl receive client) p.uri = p.diagnostics := by
      intro p hp
      obtain ⟨doc, -, hreport⟩ := (mem_reports host around docs).mp hp
      obtain ⟨d, hd⟩ := report_single host around docs hreport
      have hheld := (h p.uri d).mpr ⟨p, hp, rfl, by simp [hd]⟩
      obtain ⟨doc', hdoc', -, heq, -⟩ := held_of_published
        (cleared.foldl receive client) (Or.inl ⟨p, hp, rfl⟩)
      rw [heq] at hheld ⊢
      cases hreport' : report host around docs doc' with
      | none =>
        rw [validateDocument_of_clean hreport'] at hheld
        cases hheld
      | some packet =>
        obtain ⟨d', hd'⟩ := report_single host around docs hreport'
        rw [validateDocument_of_report hreport', hd'] at hheld ⊢
        rw [hd, mem_singleton.mp hheld]
    intro p hp q hq huri
    rw [← hone p hp, huri, hone q hq]
  kept := by
    rintro uri hclean ⟨packet, hmem, huri⟩
    obtain ⟨doc, -, hreport⟩ := (mem_reports host around docs).mp hmem
    obtain ⟨d, hd⟩ := report_single host around docs hreport
    have hheld := (h uri d).mpr ⟨packet, hmem, huri, by simp [hd]⟩
    obtain ⟨doc', hdoc', huri', heq, hlast⟩ := held_of_published
      (cleared.foldl receive client) (Or.inr hclean)
    rw [heq] at hheld
    obtain ⟨doc₀, hdoc₀, huri₀, hclean₀⟩ := hclean
    cases hreport' : report host around docs doc' with
    | none =>
      rw [validateDocument_of_clean hreport'] at hheld
      cases hheld
    | some packet' =>
      rw [validateDocument_of_report hreport'] at huri'
      refine ⟨doc', hdoc', ?_, packet', hreport', huri'⟩
      -- The document itself is validated before, since its packet is not the last.
      rcases lt_trichotomy uri doc'.uri with hlt | heq' | hgt
      · exact hlt
      · have hsame : doc₀ = doc' :=
          inj_on_of_nodup_map docs.distinct hdoc₀ hdoc' (huri₀.trans heq')
        rw [hsame, hreport'] at hclean₀
        cases hclean₀
      · refine absurd ?_ (hlast doc₀ hdoc₀ (by rwa [huri₀]))
        rw [validateDocument_of_clean hclean₀, huri₀]
  fresh := by
    intro p hp
    by_contra hnot
    rw [not_or, not_or] at hnot
    obtain ⟨hreported, hclean, hcleared⟩ := hnot
    obtain ⟨d, hd⟩ := hsingle p hp
    have hheld : d ∈ (validateWorkspace host around docs).foldl receive
        (cleared.foldl receive client) p.uri := by
      rw [held_of_not_published (not_or.mpr ⟨hreported, hclean⟩), mem_cleared hempty, hold]
      exact ⟨⟨p, hp, rfl, by simp [hd]⟩, fun q hq huri => hcleared ⟨q, hq, huri⟩⟩
    obtain ⟨packet, hmem, huri, -⟩ := (h p.uri d).mp hheld
    exact hreported ⟨packet, hmem, huri⟩

end Step

end Validation

/-! ## Sessions -/

section Sessions

variable {Disk : Type} (host : Host Disk)

/-- The client holds what the latest analysis of the open documents reports. -/
def Session.Consistent (s : Session) : Prop := Holds s.client s.latest

/-- A notification settles the URIs: it has a workspace validated that does, or it clears only
    URIs that nothing is reported on. -/
def Settles (s : Session) (event : Notification × Surroundings Disk) : Prop :=
  let update := s.docs.update host event.1
  if update.validated then Validates host event.2 update.docs update.packets s.latest
  else ∀ p ∈ update.packets, ∀ q ∈ s.latest, q.uri ≠ p.uri

/-- The latest analysis reports one diagnostic in each packet. -/
def Session.Single (s : Session) : Prop := ∀ p ∈ s.latest, ∃ d, p.diagnostics = [d]

theorem change_packets (docs : Documents) (uri text : String) (version : Int) :
    (docs.change uri text version).packets = [] := by
  rw [Documents.change]
  split
  · rfl
  · split <;> rfl

theorem update_packets (docs : Documents) (notification : Notification) :
    ∀ p ∈ (docs.update host notification).packets, p.diagnostics = [] := by
  intro p hp
  cases notification with
  | didOpen uri text version =>
    rw [Documents.update] at hp
    split at hp
    · rw [mem_singleton.mp hp]
    · cases hp
  | didChange uri changes version =>
    rw [Documents.update] at hp
    split at hp
    · cases hp
    · rw [change_packets] at hp
      cases hp
  | didSave uri text =>
    cases text with
    | none => cases hp
    | some text =>
      rw [Documents.update, change_packets] at hp
      cases hp
  | didClose uri => rw [mem_singleton.mp hp]

theorem step_total (s : Session) (event : Notification × Surroundings Disk) :
    ∃ s', s.step host event = some s' := by
  by_cases hvalidated : (s.docs.update host event.1).validated = true
  · exact ⟨_, if_pos hvalidated⟩
  · exact ⟨_, if_neg hvalidated⟩

variable {event : Notification × Surroundings Disk}

theorem single_step {s s' : Session} (h : s.Single) (hstep : s.step host event = some s') :
    s'.Single := by
  rw [Session.step] at hstep
  split at hstep
  · cases hstep
    intro p hp
    obtain ⟨doc, -, hreport⟩ := (mem_reports host _ _).mp hp
    exact report_single host _ _ hreport
  · cases hstep
    exact h

theorem consistent_step_iff {s s' : Session} (hsingle : s.Single) (h : s.Consistent)
    (hstep : s.step host event = some s') :
    s'.Consistent ↔ Settles host s event := by
  have hempty := update_packets host s.docs event.1
  rw [Session.step] at hstep
  by_cases hvalidated : (s.docs.update host event.1).validated = true
  · rw [if_pos hvalidated] at hstep
    cases hstep
    rw [Settles, if_pos hvalidated]
    exact ⟨Validates.of_holds h hsingle hempty, fun hvalidates => hvalidates.holds h hempty⟩
  · rw [if_neg hvalidated] at hstep
    cases hstep
    rw [Settles, if_neg hvalidated]
    constructor
    · intro hconsistent p hp q hq huri
      obtain ⟨d, hd⟩ := hsingle q hq
      have hheld := (hconsistent q.uri d).mpr ⟨q, hq, rfl, by simp [hd]⟩
      exact ((mem_cleared hempty _ _ _).mp hheld).2 p hp huri.symm
    · intro hsettles uri d
      rw [mem_cleared hempty, h uri d]
      refine and_iff_left_of_imp ?_
      rintro ⟨q, hq, huri, -⟩ p hp hpuri
      exact hsettles p hp q hq (huri.trans hpuri.symm)

theorem initial_consistent : ({} : Session).Consistent ∧ ({} : Session).Single := by
  refine ⟨?_, ?_⟩
  · intro uri d
    simp
  · intro p hp
    cases hp

end Sessions

/-! ## An import that is removed -/

/-- Files without an order worth speaking of. -/
def plainSurroundings : Surroundings Unit := ⟨(), fun _ => ⟨id, fun _ => List.Perm.refl _⟩⟩

/-- A program imports a library that is not open and has an error. -/
def brokenLibrary : Host Unit where
  analyse _ sources _ :=
    if sources.lookup "/main.kry" = some "import lib" then
      some (diag .type "/lib.kry" 1 1 "unknown name")
    else none
  readFile _ _ := none
  pathFromURI uri := if uri = "file:///main.kry" then some "/main.kry" else none
  uriFromPath path := "file://" ++ path

/-- The program is opened, and then its import is deleted. -/
def importDeleted : List (Notification × Surroundings Unit) :=
  [(.didOpen "file:///main.kry" "import lib" 1, plainSurroundings),
    (.didChange "file:///main.kry" [""] 2, plainSurroundings)]

end Kryndel.Lsp
