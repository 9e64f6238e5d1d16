import Mathlib.Data.List.Basic
import Mathlib.Data.Fintype.Card
import Mathlib.Logic.Relation

/-!
# Depth-first search

Two walks through a graph whose nodes are expanded as they are come upon. `search` finds nodes
that come before others, or a cycle; expanding a node may fail, and so may each of the steps
that lead out of it. `gather` marks nodes as they are come upon and lists them as they are
left; it is meant for graphs without cycles.
-/

namespace DepthFirst

open Relation List

variable {α ε : Type}

/-! ## Graphs -/

/-- A step that leads from a node to another one. -/
def Edge (expand : α → Except ε (List (Except ε α))) (a b : α) : Prop :=
  ∃ steps, expand a = .ok steps ∧ .ok b ∈ steps

/-- A node that cannot be expanded, or out of which a step fails. -/
def Faulty (expand : α → Except ε (List (Except ε α))) (a : α) (e : ε) : Prop :=
  expand a = .error e ∨ ∃ steps, expand a = .ok steps ∧ .error e ∈ steps

/-- Different nodes such that what each of them leads to comes behind it. -/
inductive Ordered (edge : α → α → Prop) : List α → Prop
  | nil : Ordered edge []
  | cons {a : α} {rest : List α} (successors : ∀ b, edge a b → b ∈ rest) (new : a ∉ rest)
      (ordered : Ordered edge rest) : Ordered edge (a :: rest)

section Ordered

variable {edge : α → α → Prop} {nodes : List α} {a b : α}

theorem Ordered.mono {edge' : α → α → Prop} (h : Ordered edge nodes)
    (hedge : ∀ a ∈ nodes, ∀ b, edge' a b → edge a b) : Ordered edge' nodes := by
  induction h with
  | nil => exact .nil
  | cons successors new _ ih =>
    exact .cons (fun b h => successors b (hedge _ mem_cons_self b h)) new
      (ih fun a ha => hedge a (mem_cons_of_mem _ ha))

theorem Ordered.nodup (h : Ordered edge nodes) : nodes.Nodup := by
  induction h with
  | nil => exact .nil
  | cons _ new _ ih => exact nodup_cons.mpr ⟨new, ih⟩

theorem Ordered.mem_of_edge (h : Ordered edge nodes) (ha : a ∈ nodes) (hedge : edge a b) :
    b ∈ nodes := by
  induction h with
  | nil => cases ha
  | cons successors _ _ ih =>
    rcases mem_cons.mp ha with rfl | ha
    · exact mem_cons_of_mem _ (successors _ hedge)
    · exact mem_cons_of_mem _ (ih ha)

theorem Ordered.of_reaches (h : Ordered edge nodes) (ha : a ∈ nodes)
    (hreaches : ReflTransGen edge a b) : b ∈ nodes := by
  induction hreaches with
  | refl => exact ha
  | tail _ hedge ih => exact h.mem_of_edge ih hedge

theorem Ordered.acyclic (h : Ordered edge nodes) (ha : a ∈ nodes) : ¬ TransGen edge a a := by
  induction h with
  | nil => cases ha
  | @cons first rest successors new ordered ih =>
    rcases mem_cons.mp ha with rfl | ha
    · intro hcycle
      obtain ⟨b, hedge, hback⟩ := TransGen.head'_iff.mp hcycle
      exact new (ordered.of_reaches (successors b hedge) hback)
    · exact ih ha

theorem Ordered.behind (h : Ordered edge nodes) {front back : List α}
    (hsplit : nodes = front ++ a :: back) (hedge : edge a b) : b ∈ back := by
  induction h generalizing front with
  | nil => simp at hsplit
  | cons successors _ _ ih =>
    cases front with
    | nil =>
      obtain ⟨rfl, rfl⟩ := List.cons.inj hsplit
      exact successors b hedge
    | cons first front => exact ih (List.cons.inj hsplit).2

end Ordered

/-! ## Visiting -/

/-- Why a search ends early. -/
inductive Halt (α ε : Type) where
  /-- A node is come upon again on the way to itself. -/
  | cycle (node : α)
  | failed (error : ε)
  /-- The walk goes too deep. -/
  | cutOff

section Search

variable [DecidableEq α] (expand : α → Except ε (List (Except ε α)))

/-- What is done about a step: where it leads is visited. -/
def follow (search : List α → α → Except (Halt α ε) (List α)) (done : List α) :
    Except ε α → Except (Halt α ε) (List α)
  | .error e => .error (.failed e)
  | .ok b => search done b

/-- A node is visited on the way `stack`, after the nodes `done`, the last of them first. -/
def search : Nat → List α → List α → α → Except (Halt α ε) (List α)
  | 0, _, _, _ => .error .cutOff
  | n + 1, stack, done, a =>
    if a ∈ stack then .error (.cycle a)
    else if a ∈ done then .ok done
    else
      match expand a with
      | .error e => .error (.failed e)
      | .ok steps =>
        match steps.foldlM (follow (search n (a :: stack))) done with
        | .error stop => .error stop
        | .ok done => .ok (a :: done)

variable {expand}

/-- What is done when nodes are visited behind `from`: the nodes that are done are ordered,
    and the new ones have been reached. -/
structure Extends (expand : α → Except ε (List (Except ε α))) (reached : α → Prop)
    (done done' : List α) : Prop where
  ordered : Ordered (Edge expand) done'
  sound : ∀ b ∈ done', ∀ e, ¬ Faulty expand b e
  keeps : done ⊆ done'
  new : ∀ b ∈ done', b ∈ done ∨ reached b

/-- What a search says about what is reached: why it ended, or that what it should find has been
    found. -/
def Explained (expand : α → Except ε (List (Except ε α))) (reached : α → Prop) (done : List α)
    (found : List α → Prop) : Except (Halt α ε) (List α) → Prop
  | .ok done' => Extends expand reached done done' ∧ found done'
  | .error (.cycle b) => reached b ∧ TransGen (Edge expand) b b
  | .error (.failed e) => ∃ b, reached b ∧ Faulty expand b e
  | .error .cutOff => True

/-- The steps out of a node are followed one after another. -/
theorem follow_spec {n : Nat} {stack done : List α} {a : α} {all steps : List (Except ε α)}
    (hexpand : expand a = .ok all) (hsteps : steps ⊆ all)
    (hsearch : ∀ {done : List α} {b : α}, Ordered (Edge expand) done →
      (∀ b ∈ done, ∀ e, ¬ Faulty expand b e) → Edge expand a b →
        Explained expand (ReflTransGen (Edge expand) b) done (b ∈ ·)
          (search expand n (a :: stack) done b))
    (hordered : Ordered (Edge expand) done) (hsound : ∀ b ∈ done, ∀ e, ¬ Faulty expand b e) :
    Explained expand (ReflTransGen (Edge expand) a) done
      (fun done' => (∀ e, .error e ∉ steps) ∧ (∀ b, .ok b ∈ steps → b ∈ done') ∧
        ∀ b ∈ done', b ∈ done ∨ TransGen (Edge expand) a b)
      (steps.foldlM (follow (search expand n (a :: stack))) done) := by
  induction steps generalizing done with
  | nil =>
    exact ⟨⟨hordered, hsound, fun _ h => h, fun _ h => .inl h⟩, by simp, by simp,
      fun _ h => .inl h⟩
  | cons step steps ih =>
    have hmem := hsteps mem_cons_self
    cases step with
    | error e => exact ⟨a, .refl, .inr ⟨all, hexpand, hmem⟩⟩
    | ok b =>
      have hedge : Edge expand a b := ⟨all, hexpand, hmem⟩
      have hfirst := hsearch hordered hsound hedge
      show Explained _ _ _ _ (search expand n (a :: stack) done b >>= _)
      cases hresult : search expand n (a :: stack) done b with
      | error stop =>
        rw [hresult] at hfirst
        cases stop with
        | cycle c => exact ⟨.head hedge hfirst.1, hfirst.2⟩
        | failed e =>
          obtain ⟨c, hreach, hfaulty⟩ := hfirst
          exact ⟨c, .head hedge hreach, hfaulty⟩
        | cutOff => trivial
      | ok done' =>
        rw [hresult] at hfirst
        obtain ⟨hdone', hfound⟩ := hfirst
        have hrest := ih (fun _ h => hsteps (mem_cons_of_mem _ h)) hdone'.ordered hdone'.sound
        show Explained _ _ _ _ (steps.foldlM _ done')
        cases hresult' : steps.foldlM (follow (search expand n (a :: stack))) done' with
        | error stop =>
          rw [hresult'] at hrest
          cases stop with
          | cycle c => exact hrest
          | failed e => exact hrest
          | cutOff => trivial
        | ok done'' =>
          rw [hresult'] at hrest
          obtain ⟨hdone'', hnoError, hall, hnew⟩ := hrest
          have hnew' : ∀ c ∈ done'', c ∈ done ∨ TransGen (Edge expand) a c := by
            intro c hc
            rcases hnew c hc with hc | hreach
            · exact (hdone'.new c hc).imp_right (.head' hedge)
            · exact .inr hreach
          refine ⟨⟨hdone''.ordered, hdone''.sound,
            List.Subset.trans hdone'.keeps hdone''.keeps, ?_⟩, ?_, ?_, hnew'⟩
          · intro c hc
            exact (hnew' c hc).imp_right TransGen.to_reflTransGen
          · intro e he
            rcases mem_cons.mp he with he | he
            · cases he
            · exact hnoError e he
          · intro c hc
            rcases mem_cons.mp hc with hc | hc
            · rw [Except.ok.inj hc]
              exact hdone''.keeps hfound
            · exact hall c hc

/-- What a search comes to, when each node on the way leads to the one that is visited. -/
theorem search_spec {n : Nat} {stack done : List α} {a : α}
    (hordered : Ordered (Edge expand) done) (hsound : ∀ b ∈ done, ∀ e, ¬ Faulty expand b e)
    (hstack : ∀ b ∈ stack, TransGen (Edge expand) b a) :
    Explained expand (ReflTransGen (Edge expand) a) done (a ∈ ·)
      (search expand n stack done a) := by
  induction n generalizing stack done a with
  | zero => trivial
  | succ n ih =>
    rw [search]
    by_cases hcycle : a ∈ stack
    · rw [if_pos hcycle]
      exact ⟨.refl, hstack a hcycle⟩
    rw [if_neg hcycle]
    by_cases hdone : a ∈ done
    · rw [if_pos hdone]
      exact ⟨⟨hordered, hsound, fun _ h => h, fun _ h => .inl h⟩, hdone⟩
    rw [if_neg hdone]
    cases hexpand : expand a with
    | error e => exact ⟨a, .refl, .inl hexpand⟩
    | ok steps =>
      have hloop := @follow_spec _ _ _ expand n stack done a steps steps hexpand (fun _ h => h)
        (fun hordered hsound hedge => ih hordered hsound (by
          intro b hb
          rcases mem_cons.mp hb with rfl | hb
          · exact .single hedge
          · exact .tail (hstack b hb) hedge)) hordered hsound
      show Explained _ _ _ _ (match steps.foldlM (follow (search expand n (a :: stack))) done with
        | .error stop => .error stop | .ok done => .ok (a :: done))
      cases hresult : steps.foldlM (follow (search expand n (a :: stack))) done with
      | error stop =>
        rw [hresult] at hloop
        cases stop with
        | cycle c => exact hloop
        | failed e => exact hloop
        | cutOff => trivial
      | ok done' =>
        rw [hresult] at hloop
        obtain ⟨hdone', hnoError, hall, hreached⟩ := hloop
        have hsuccessors : ∀ b, Edge expand a b → b ∈ done' := by
          rintro b ⟨steps', hsteps', hb⟩
          rw [hexpand] at hsteps'
          rw [← Except.ok.inj hsteps'] at hb
          exact hall b hb
        -- the node is not found behind itself: there are no cycles among what is done
        have hnew : a ∉ done' := by
          intro ha
          exact hdone'.ordered.acyclic ha ((hreached a ha).resolve_left hdone)
        refine ⟨⟨.cons hsuccessors hnew hdone'.ordered, ?_, ?_, ?_⟩, mem_cons_self⟩
        · intro b hb
          rcases mem_cons.mp hb with rfl | hb
          · rintro e (he | ⟨steps', hsteps', he⟩)
            · rw [hexpand] at he
              cases he
            · rw [hexpand] at hsteps'
              rw [← Except.ok.inj hsteps'] at he
              exact hnoError e he
          · exact hdone'.sound b hb
        · exact List.Subset.trans hdone'.keeps (subset_cons_self _ _)
        · intro b hb
          rcases mem_cons.mp hb with rfl | hb
          · exact .inr .refl
          · exact hdone'.new b hb

/-- A search does not go too deep when its bound is larger than the number of nodes that are not
    on the way. -/
theorem search_enough {n : Nat} {stack done nodes : List α} {a : α}
    (hnodes : ∀ a b, a ∈ nodes → Edge expand a b → b ∈ nodes) (ha : a ∈ nodes)
    (hstack : stack ⊆ nodes) (hnodup : stack.Nodup) (hn : nodes.length < n + stack.length) :
    search expand n stack done a ≠ .error .cutOff := by
  induction n generalizing stack done a with
  | zero =>
    have hlength := (subperm_of_subset hnodup hstack).length_le
    omega
  | succ n ih =>
    rw [search]
    split
    · simp
    next hcycle =>
    split
    · simp
    split
    · simp
    next steps hexpand =>
    have hloop : ∀ (steps' : List (Except ε α)) (done : List α), steps' ⊆ steps →
        steps'.foldlM (follow (search expand n (a :: stack))) done ≠ .error .cutOff := by
      intro steps'
      induction steps' with
      | nil =>
        intro done _ h
        cases h
      | cons step steps' ihsteps =>
        intro done hsteps
        rw [foldlM_cons]
        cases step with
        | error e =>
          intro h
          cases h
        | ok b =>
          have hb := hnodes a b ha ⟨steps, hexpand, hsteps mem_cons_self⟩
          have hfirst := @ih (a :: stack) done b hb (cons_subset.mpr ⟨ha, hstack⟩)
            (nodup_cons.mpr ⟨hcycle, hnodup⟩) (by rw [length_cons]; omega)
          show (search expand n (a :: stack) done b >>= _) ≠ _
          cases hresult : search expand n (a :: stack) done b with
          | error stop =>
            rw [hresult] at hfirst
            exact hfirst
          | ok done' => exact ihsteps done' fun _ h => hsteps (mem_cons_of_mem _ h)
    have hsteps := hloop steps done fun _ h => h
    split
    · next stop hstop =>
      rw [hstop] at hsteps
      exact fun h => hsteps h
    · simp

theorem search_succ {n : Nat} {stack done : List α} {a : α}
    (h : search expand n stack done a ≠ .error .cutOff) :
    search expand (n + 1) stack done a = search expand n stack done a := by
  induction n generalizing stack done a with
  | zero => exact absurd rfl h
  | succ n ih =>
    rw [search] at h ⊢
    rw [search]
    split
    · rfl
    next hcycle =>
    rw [if_neg hcycle] at h
    split
    · rfl
    next hdone =>
    rw [if_neg hdone] at h
    cases hexpand : expand a with
    | error e => rfl
    | ok steps =>
      rw [hexpand] at h
      have hloop : ∀ (steps : List (Except ε α)) (done : List α),
          steps.foldlM (follow (search expand n (a :: stack))) done ≠ .error .cutOff →
            steps.foldlM (follow (search expand (n + 1) (a :: stack))) done =
              steps.foldlM (follow (search expand n (a :: stack))) done := by
        intro steps
        induction steps with
        | nil => exact fun done _ => rfl
        | cons step steps ihsteps =>
          intro done hne
          rw [foldlM_cons] at hne ⊢
          rw [foldlM_cons]
          cases step with
          | error e => rfl
          | ok b =>
            change (search expand n (a :: stack) done b >>= _) ≠ _ at hne
            show (search expand (n + 1) (a :: stack) done b >>= _) =
              (search expand n (a :: stack) done b >>= _)
            have hfirst : search expand n (a :: stack) done b ≠ .error .cutOff := by
              intro hcut
              rw [hcut] at hne
              exact hne rfl
            rw [ih hfirst]
            cases hresult : search expand n (a :: stack) done b with
            | error stop => rfl
            | ok done' =>
              rw [hresult] at hne
              exact ihsteps done' hne
      simp only
      rw [hloop steps done]
      intro hcut
      simp only [hcut] at h
      exact h rfl

theorem search_mono {n m : Nat} {stack done : List α} {a : α}
    (h : search expand n stack done a ≠ .error .cutOff) (hnm : n ≤ m) :
    search expand m stack done a = search expand n stack done a := by
  induction hnm with
  | refl => rfl
  | step _ ih => rw [search_succ (by rwa [ih]), ih]

end Search

/-! ## Gathering -/

section Gather

variable [DecidableEq α] (next : α → Option (List α))

/-- What is done about a node: it is marked when it is come upon, and listed when it is left.
    A node that is unknown is only marked. -/
def mark (gather : List α × List α → List α → Option (List α × List α)) (st : List α × List α)
    (b : α) : Option (List α × List α) :=
  if b ∈ st.1 then some st
  else
    match next b with
    | none => some (b :: st.1, st.2)
    | some after => (gather (b :: st.1, st.2) after).map fun st' => (st'.1, b :: st'.2)

/-- The nodes behind some nodes, with those that are marked and those that are listed, the last
    of them first. -/
def gather : Nat → List α × List α → List α → Option (List α × List α)
  | 0, _, _ => none
  | n + 1, st, nodes => nodes.foldlM (mark next (gather n)) st

variable {next}

/-- A step to one of the nodes that come next. -/
def Next (next : α → Option (List α)) (a b : α) : Prop :=
  ∃ after, next a = some after ∧ b ∈ after

/-- The marks and the list while the nodes of `path` are being left: what is marked is listed or
    on the way. -/
structure Marked (next : α → Option (List α)) (path : List α) (st : List α × List α) : Prop where
  ordered : Ordered (Next next) st.2
  marks : ∀ b, b ∈ st.1 ↔ b ∈ st.2 ∨ b ∈ path

/-- What is gathered behind some nodes of a graph without cycles: all of them, and what they
    lead to. -/
theorem gather_spec {nodes path targets : List α} (hnodes : Ordered (Next next) nodes)
    (hknown : ∀ b ∈ nodes, next b ≠ none) {n : Nat} (hn : nodes.length < n + path.length)
    (hpath : path ⊆ nodes) (hnodup : path.Nodup) (htargets : targets ⊆ nodes)
    (hleads : ∀ a ∈ path, ∀ b ∈ targets, TransGen (Next next) a b) {st : List α × List α}
    (hst : Marked next path st) :
    ∃ st', gather next n st targets = some st' ∧ Marked next path st' ∧ st.2 ⊆ st'.2 ∧
      targets ⊆ st'.2 ∧
        ∀ b ∈ st'.2, b ∈ st.2 ∨ ∃ a ∈ targets, ReflTransGen (Next next) a b := by
  induction n generalizing path targets st with
  | zero =>
    have hlength := (subperm_of_subset hnodup hpath).length_le
    omega
  | succ n ih =>
    rw [gather]
    induction targets generalizing st with
    | nil => exact ⟨st, rfl, hst, fun _ h => h, by simp, fun _ h => .inl h⟩
    | cons b targets ihtargets =>
      rw [foldlM_cons]
      obtain ⟨hb, htargets⟩ := cons_subset.mp htargets
      have hleads' : ∀ a ∈ path, ∀ c ∈ targets, TransGen (Next next) a c :=
        fun a ha c hc => hleads a ha c (mem_cons_of_mem _ hc)
      -- the node is listed once it has been dealt with
      have hfirst : ∃ st', mark next (gather next n) st b = some st' ∧ Marked next path st' ∧
          st.2 ⊆ st'.2 ∧ b ∈ st'.2 ∧ ∀ c ∈ st'.2, c ∈ st.2 ∨ ReflTransGen (Next next) b c := by
        by_cases hmarked : b ∈ st.1
        · refine ⟨st, by rw [mark, if_pos hmarked], hst, fun _ h => h, ?_, fun _ h => .inl h⟩
          refine ((hst.marks b).mp hmarked).resolve_right fun hway => ?_
          exact hnodes.acyclic hb (hleads b hway b mem_cons_self)
        · obtain ⟨after, hafter⟩ := Option.ne_none_iff_exists'.mp (hknown b hb)
          have hway : b ∉ path := fun h => hmarked ((hst.marks b).mpr (.inr h))
          have hnotListed : b ∉ st.2 := fun h => hmarked ((hst.marks b).mpr (.inl h))
          have hstep : ∀ c ∈ after, Next next b c := fun c hc => ⟨after, hafter, hc⟩
          obtain ⟨st', hst', hmarked', hkeeps, hall, hnew⟩ :=
            @ih (b :: path) after (by rw [length_cons]; omega)
              (cons_subset.mpr ⟨hb, hpath⟩) (nodup_cons.mpr ⟨hway, hnodup⟩)
              (fun c hc => hnodes.mem_of_edge hb (hstep c hc))
              (by
                intro a ha c hc
                rcases mem_cons.mp ha with rfl | ha
                · exact .single (hstep c hc)
                · exact .tail (hleads a ha b mem_cons_self) (hstep c hc))
              (b :: st.1, st.2)
              ⟨hst.ordered, fun c => by
                rw [mem_cons, mem_cons, hst.marks c]
                exact or_left_comm⟩
          have hreached : ∀ c ∈ st'.2, c ∈ st.2 ∨ TransGen (Next next) b c := by
            intro c hc
            rcases hnew c hc with hc | ⟨a, ha, hreach⟩
            · exact .inl hc
            · exact .inr (.head' (hstep a ha) hreach)
          have hfresh : b ∉ st'.2 := by
            intro h
            exact hnodes.acyclic hb ((hreached b h).resolve_left hnotListed)
          refine ⟨(st'.1, b :: st'.2), ?_, ⟨?_, ?_⟩, ?_, mem_cons_self, ?_⟩
          · rw [mark, if_neg hmarked, hafter]
            simp only [hst', Option.map_some]
          · refine .cons ?_ hfresh hmarked'.ordered
            rintro c ⟨after', hafter', hc⟩
            rw [hafter] at hafter'
            rw [← Option.some.inj hafter'] at hc
            exact hall hc
          · intro c
            rw [hmarked'.marks c, mem_cons, mem_cons, or_left_comm, or_assoc]
          · exact List.Subset.trans hkeeps (subset_cons_self _ _)
          · intro c hc
            rcases mem_cons.mp hc with rfl | hc
            · exact .inr .refl
            · exact (hreached c hc).imp_right TransGen.to_reflTransGen
      obtain ⟨st', hst', hmarked', hkeeps, hhere, hnew⟩ := hfirst
      obtain ⟨st'', hst'', hmarked'', hkeeps', hall, hnew'⟩ :=
        ihtargets htargets hleads' hmarked'
      refine ⟨st'', ?_, hmarked'', List.Subset.trans hkeeps hkeeps', ?_, ?_⟩
      · rw [hst']
        exact hst''
      · exact cons_subset.mpr ⟨hkeeps' hhere, hall⟩
      · intro c hc
        rcases hnew' c hc with hc | ⟨a, ha, hreach⟩
        · rcases hnew c hc with hc | hreach
          · exact .inl hc
          · exact .inr ⟨b, mem_cons_self, hreach⟩
        · exact .inr ⟨a, mem_cons_of_mem _ ha, hreach⟩

variable {st' st : List α × List α}

theorem gather_succ {n : Nat} {targets : List α} (h : gather next n st targets = some st') :
    gather next (n + 1) st targets = some st' := by
  induction n generalizing st targets st' with
  | zero => cases h
  | succ n ih =>
    rw [gather] at h ⊢
    induction targets generalizing st with
    | nil => exact h
    | cons b targets ihtargets =>
      obtain ⟨middle, hmiddle, hrest⟩ := Option.bind_eq_some_iff.mp h
      have hmark : mark next (gather next (n + 1)) st b = some middle := by
        unfold mark at hmiddle ⊢
        split
        · next hmarked => rwa [if_pos hmarked] at hmiddle
        · next hmarked =>
          rw [if_neg hmarked] at hmiddle
          split at hmiddle
          · exact hmiddle
          · obtain ⟨inner, hinner, rfl⟩ := Option.map_eq_some_iff.mp hmiddle
            rw [ih hinner, Option.map_some]
      exact Option.bind_eq_some_iff.mpr ⟨middle, hmark, ihtargets hrest⟩

theorem gather_mono {n m : Nat} {targets : List α} (h : gather next n st targets = some st')
    (hnm : n ≤ m) :
    gather next m st targets = some st' := by
  induction hnm with
  | refl => exact h
  | step _ ih => exact gather_succ ih

end Gather

end DepthFirst
