import Kryndel.Package.Install
import Kryndel.Syntax.Source

/-!
# What a lock file promises

A lock file is sound when it holds the dependencies of the manifest and of each of its
packages, each once, and every locked version meets all constraints on it (`LockSound`).

An installation looks at one constraint of each package: the manifest's, or the first that
a locked package puts on it. Its lock file is sound exactly when nothing is lost by this
(`Compatible`): each time a package is locked, the version that the registry has for the
constraint noted for a dependency also meets the package's own constraint.
-/

namespace Kryndel

open Worklist List

/-! ## Soundness -/

/-- The lock file holds every dependency once, with a version that meets all constraints of
    the manifest, whose dependencies for the target are `roots`, and of the locked packages. -/
structure LockSound (w : World) (roots : StringMap String) (lock : LockFile) : Prop where
  /-- A locked package is a version in the registry, with its dependencies for the target. -/
  registered : ∀ p ∈ lock.packages, ∃ versions v, index w p.name = .ok versions ∧ v ∈ versions ∧
    p.version = v.version ∧
    p.dependencies = resolvedDependencies v.dependencies v.targetDependencies (installTarget w)
  roots_locked : ∀ name ∈ roots, ∃ p ∈ lock.packages, p.name = name
  dependencies_locked : ∀ p ∈ lock.packages, ∀ dep ∈ p.dependencies,
    ∃ q ∈ lock.packages, q.name = dep
  once : (lock.packages.map LockedPackage.name).Nodup
  roots_met : ∀ p ∈ lock.packages, ∀ c, roots.lookup p.name = some c →
    satisfies p.version c = true
  dependencies_met : ∀ p ∈ lock.packages, ∀ q ∈ lock.packages, ∀ c,
    p.dependencies.lookup q.name = some c → satisfies q.version c = true

/-- The version that the registry has for a noted constraint meets another one. -/
def Meets (w : World) (constraints : StringMap String) (dep c : String) : Prop :=
  ∀ noted, constraints.lookup dep = some noted →
    ∀ chosen, resolve w dep noted = .ok chosen → satisfies chosen.version c = true

/-- Each time a package is locked, the versions for the constraints already noted meet the
    constraints of the package. -/
def Compatible (w : World) (first : Frontier String Progress) : Prop :=
  ∀ f, Worklist.Reached (installs w) first f → ∀ name rest, f.queue = name :: rest → name ∉ f.seen →
    ∀ v, resolve w name ((f.state.constraints.lookup name).getD "") = .ok v →
      ∀ dep c,
        (resolvedDependencies v.dependencies v.targetDependencies (installTarget w)).lookup dep =
          some c →
        Meets w f.state.constraints dep c

/-! ## Noted constraints -/

variable {cs : StringMap String} {k c : String}

theorem noteConstraint_lookup (noted : cs.lookup k = some c) (dep constraint : String) :
    (noteConstraint cs dep constraint).lookup k = some c := by
  unfold noteConstraint
  split
  · exact noted
  · next fresh =>
    have other : k ≠ dep := by
      intro same
      subst same
      rw [AList.lookup_eq_none.mpr fresh] at noted
      cases noted
    rw [AList.lookup_insert_ne other, noted]

theorem noted_kept (noted : cs.lookup k = some c) (new : List (Sigma fun _ : String => String)) :
    (new.foldl (fun cs entry => noteConstraint cs entry.1 entry.2) cs).lookup k = some c := by
  induction new generalizing cs with
  | nil => exact noted
  | cons entry new ih => exact ih (noteConstraint_lookup noted entry.1 entry.2)

theorem noted_new {new : List (Sigma fun _ : String => String)} (nodup : (new.map Sigma.fst).Nodup)
    {dep c : String} (mem : ⟨dep, c⟩ ∈ new) :
    ∃ c', (new.foldl (fun cs entry => noteConstraint cs entry.1 entry.2) cs).lookup dep = some c' ∧
      (cs.lookup dep = some c' ∨ cs.lookup dep = none ∧ c' = c) := by
  induction new generalizing cs with
  | nil => cases mem
  | cons entry new ih =>
    simp only [map_cons, nodup_cons] at nodup
    rw [foldl_cons]
    rcases mem_cons.mp mem with rfl | later
    · cases before : cs.lookup dep with
      | some c' => exact ⟨c', noted_kept (noteConstraint_lookup before _ _) new, Or.inl rfl⟩
      | none =>
        refine ⟨c, noted_kept ?_ new, Or.inr ⟨rfl, rfl⟩⟩
        rw [noteConstraint, if_neg (AList.lookup_eq_none.mp before), AList.lookup_insert]
    · have other : dep ≠ entry.1 := by
        intro same
        apply nodup.1
        rw [← same]
        exact mem_map_of_mem later
      have unchanged : (noteConstraint cs entry.1 entry.2).lookup dep = cs.lookup dep := by
        unfold noteConstraint
        split
        · rfl
        · exact AList.lookup_insert_ne other
      rw [← unchanged]
      exact ih nodup.2 later

/-! ## What a round does -/

section Rounds

variable {w : World}

variable {v : RegistryVersion} {name : String}

theorem resolve_spec (chosen : resolve w name c = .ok v) :
    satisfies v.version c = true ∧ ∃ versions, index w name = .ok versions ∧ v ∈ versions := by
  unfold resolve at chosen
  split at chosen
  · cases chosen
  · rw [bind_eq_ok_iff] at chosen
    obtain ⟨versions, found, chosen⟩ := chosen
    split at chosen
    · next u first =>
      cases chosen
      exact ⟨by simpa using find?_some first, versions, found, mem_of_find?_eq_some first⟩
    · cases chosen

variable {lp : LockedPackage}

theorem download_spec (ok : download w name v = .ok lp) :
    lp.name = name ∧ lp.version = v.version := by
  unfold download at ok
  split at ok
  · cases ok
  · rw [bind_eq_ok_iff] at ok
    obtain ⟨⟨manifest, got⟩, -, ok⟩ := ok
    simp only at ok
    split at ok
    · cases ok
    · rw [bind_eq_ok_iff] at ok
      obtain ⟨-, -, ok⟩ := ok
      cases ok
      exact ⟨rfl, rfl⟩

theorem lockPackage_spec (ok : lockPackage w name v = .ok lp) :
    lp.name = name ∧ lp.version = v.version ∧
      lp.dependencies =
        resolvedDependencies v.dependencies v.targetDependencies (installTarget w) := by
  simp only [lockPackage, bind_eq_ok_iff] at ok
  obtain ⟨lp', downloaded, -, -, ok⟩ := ok
  cases ok
  exact ⟨(download_spec downloaded).1, (download_spec downloaded).2, rfl⟩

theorem installPackage_spec {seen new : List String} {st st' : Progress}
    (ok : installPackage w seen name st = .ok (new, st')) :
    ∃ v lp, resolve w name ((st.constraints.lookup name).getD "") = .ok v ∧
      lockPackage w name v = .ok lp ∧
      new = (lp.dependencies.entries.filter (·.1 ∉ seen)).map Sigma.fst ∧
      st'.packages = st.packages ++ [lp] ∧
      st'.constraints = (lp.dependencies.entries.filter (·.1 ∉ seen)).foldl
        (fun cs entry => noteConstraint cs entry.1 entry.2) st.constraints := by
  simp only [installPackage, bind_eq_ok_iff] at ok
  obtain ⟨v, chosen, lp, locked, ok⟩ := ok
  cases ok
  exact ⟨v, lp, chosen, locked, rfl, rfl, rfl⟩

end Rounds

/-! ## The loop -/

section Loop

variable {w : World} {f f' last : Frontier String Progress}

/-- What holds between two rounds. -/
structure Underway (w : World) (f : Frontier String Progress) : Prop where
  /-- The packages are those that have been seen. -/
  packages : f.state.packages.map LockedPackage.name = f.seen.reverse
  /-- There is a constraint for every package that is known. -/
  noted : ∀ name, f.Has name → name ∈ f.state.constraints
  locked : ∀ p ∈ f.state.packages, ∃ c v, f.state.constraints.lookup p.name = some c ∧
    resolve w p.name c = .ok v ∧ lockPackage w p.name v = .ok p
  queued : ∀ p ∈ f.state.packages, ∀ dep ∈ p.dependencies, f.Has dep

/-- A visit, with all that it does. -/
structure Visit (w : World) (f f' : Frontier String Progress) (name c : String)
    (v : RegistryVersion) (lp : LockedPackage) : Prop where
  head : ∃ rest, f.queue = name :: rest
  fresh : name ∉ f.seen
  constraint : f.state.constraints.lookup name = some c
  chosen : resolve w name c = .ok v
  lock : lockPackage w name v = .ok lp
  seen : f'.seen = name :: f.seen
  packages : f'.state.packages = f.state.packages ++ [lp]
  kept : ∀ k c, f.state.constraints.lookup k = some c → f'.state.constraints.lookup k = some c
  has : ∀ dep ∈ lp.dependencies, f'.Has dep
  known : ∀ a, f'.Has a → f.Has a ∨ a ∈ lp.dependencies
  /-- The constraints after the visit: those before, or the package's own. -/
  own : ∀ dep c, lp.dependencies.lookup dep = some c → ∃ c',
    f'.state.constraints.lookup dep = some c' ∧
      (f.state.constraints.lookup dep = some c' ∨ f.state.constraints.lookup dep = none ∧ c' = c)

theorem mem_constraints :
    k ∈ cs ↔ ∃ c, cs.lookup k = some c := by
  rw [← AList.lookup_isSome, Option.isSome_iff_exists]

theorem round_cases (underway : Underway w f) (step : next (installs w) f = some (.ok f')) :
    (∃ name rest, f.queue = name :: rest ∧ name ∈ f.seen ∧ f' = ⟨rest, f.seen, f.state⟩) ∨
      ∃ name c v lp, Visit w f f' name c v lp := by
  obtain ⟨name, rest, queue, ⟨old, rfl⟩ | ⟨fresh, new, st', visit, rfl⟩⟩ := next_cases step
  · exact Or.inl ⟨name, rest, queue, old, rfl⟩
  · obtain ⟨v, lp, chosen, lock, rfl, packages, constraints⟩ := installPackage_spec visit
    have queued : f.Has name := Or.inr (by rw [queue]; exact mem_cons_self ..)
    obtain ⟨c, noted⟩ := mem_constraints.mp (underway.noted name queued)
    rw [noted, Option.getD_some] at chosen
    have kept (k c : String) (before : f.state.constraints.lookup k = some c) :
        st'.constraints.lookup k = some c := by
      rw [constraints]
      exact noted_kept before _
    have nodup : ((lp.dependencies.entries.filter (·.1 ∉ name :: f.seen)).map Sigma.fst).Nodup :=
      lp.dependencies.keys_nodup.sublist (filter_sublist.map Sigma.fst)
    refine Or.inr ⟨name, c, v, lp, ⟨rest, queue⟩, fresh, noted, chosen, lock, rfl, packages, kept,
      ?_, ?_, ?_⟩
    · intro dep mem
      by_cases old : dep ∈ name :: f.seen
      · exact Or.inl old
      · refine Or.inr (((installs w).mem_arrange _ _).mpr (mem_append_right _ ?_))
        obtain ⟨c, here⟩ := mem_constraints.mp mem
        rw [← Option.mem_def, AList.mem_lookup_iff] at here
        exact mem_map.mpr ⟨⟨dep, c⟩, by simpa using ⟨here, by simpa using old⟩, rfl⟩
    · intro a has
      rcases has with seen | waits
      · rcases mem_cons.mp seen with rfl | before
        · exact Or.inl queued
        · exact Or.inl (Or.inl before)
      · rcases mem_append.mp (((installs w).mem_arrange _ _).mp waits) with before | added
        · exact Or.inl (Or.inr (by rw [queue]; exact mem_cons_of_mem _ before))
        · obtain ⟨entry, mem, rfl⟩ := mem_map.mp added
          exact Or.inr (AList.mem_keys.mpr (mem_map_of_mem (mem_of_mem_filter mem)))
    · intro dep c here
      rw [← Option.mem_def, AList.mem_lookup_iff] at here
      by_cases old : dep ∈ name :: f.seen
      · have known : f.Has dep := by
          rcases mem_cons.mp old with rfl | seen
          · exact queued
          · exact Or.inl seen
        obtain ⟨c', before⟩ := mem_constraints.mp (underway.noted dep known)
        exact ⟨c', kept dep c' before, Or.inl before⟩
      · have mem : (⟨dep, c⟩ : Sigma fun _ : String => String) ∈
            lp.dependencies.entries.filter (·.1 ∉ name :: f.seen) := by
          simpa using ⟨here, by simpa using old⟩
        simp only [constraints]
        exact noted_new nodup mem

theorem Underway.next (underway : Underway w f) (step : next (installs w) f = some (.ok f')) :
    Underway w f' := by
  rcases round_cases underway step with ⟨name, rest, queue, -, rfl⟩ | ⟨name, c, v, lp, visit⟩
  · refine ⟨underway.packages, ?_, underway.locked, ?_⟩
    · intro a has
      apply underway.noted
      rcases has with seen | waits
      · exact Or.inl seen
      · exact Or.inr (by rw [queue]; exact mem_cons_of_mem _ waits)
    · intro p mem dep needed
      exact has_next step (underway.queued p mem dep needed)
  · have spec := lockPackage_spec visit.lock
    refine ⟨?_, ?_, ?_, ?_⟩
    · rw [visit.packages, visit.seen, map_append, underway.packages, reverse_cons]
      simp [spec.1]
    · intro a has
      rcases visit.known a has with before | needed
      · obtain ⟨c, noted⟩ := mem_constraints.mp (underway.noted a before)
        exact mem_constraints.mpr ⟨c, visit.kept a c noted⟩
      · obtain ⟨c, here⟩ := mem_constraints.mp needed
        obtain ⟨c', noted, -⟩ := visit.own a c here
        exact mem_constraints.mpr ⟨c', noted⟩
    · intro p mem
      rw [visit.packages] at mem
      rcases mem_append.mp mem with before | now
      · obtain ⟨c, v, noted, chosen, lock⟩ := underway.locked p before
        exact ⟨c, v, visit.kept _ _ noted, chosen, lock⟩
      · rw [mem_singleton.mp now, spec.1]
        exact ⟨c, v, visit.kept _ _ visit.constraint, visit.chosen, visit.lock⟩
    · intro p mem dep needed
      rw [visit.packages] at mem
      rcases mem_append.mp mem with before | now
      · exact has_next step (underway.queued p before dep needed)
      · rw [mem_singleton.mp now] at needed
        exact visit.has dep needed

theorem underway_first (w : World) (m : PackageManifest) (requested : List String) :
    Underway w (firstRound w m requested) := by
  refine ⟨rfl, ?_, ?_, ?_⟩
  · intro name has
    rcases has with seen | waits
    · cases seen
    · exact AList.mem_keys.mpr ((mem_insertionSort _).mp waits)
  all_goals
    intro p mem
    cases mem

theorem noted_reached (underway : Underway w f) (reached : Worklist.Reached (installs w) f f')
    (noted : f.state.constraints.lookup k = some c) :
    f'.state.constraints.lookup k = some c := by
  have both := reached.invariant
    (P := fun f => Underway w f ∧ f.state.constraints.lookup k = some c)
    (fun g g' holds step => by
      refine ⟨holds.1.next step, ?_⟩
      rcases round_cases holds.1 step with ⟨name, rest, queue, -, rfl⟩ | ⟨name, c', v, lp, visit⟩
      · exact holds.2
      · exact visit.kept _ _ holds.2)
    ⟨underway, noted⟩
  exact both.2

theorem locked_reached (underway : Underway w f) (reached : Worklist.Reached (installs w) f f')
    {p : LockedPackage} (mem : p ∈ f.state.packages) : p ∈ f'.state.packages := by
  have both := reached.invariant
    (P := fun f => Underway w f ∧ p ∈ f.state.packages)
    (fun g g' holds step => by
      refine ⟨holds.1.next step, ?_⟩
      rcases round_cases holds.1 step with ⟨name, rest, queue, -, rfl⟩ | ⟨name, c', v, lp, visit⟩
      · exact holds.2
      · rw [visit.packages]
        exact mem_append_left _ holds.2)
    ⟨underway, mem⟩
  exact both.2

end Loop

/-! ## At the end -/

section End

variable {w : World} {m : PackageManifest} {requested : List String}
  {last : Frontier String Progress}

theorem underway_reached {f : Frontier String Progress}
    (reached : Worklist.Reached (installs w) (firstRound w m requested) f) : Underway w f :=
  reached.invariant (fun _ _ underway step => underway.next step) (underway_first w m requested)

theorem locked_of_has (underway : Underway w last) (empty : last.queue = []) {name : String}
    (has : last.Has name) : ∃ p ∈ last.state.packages, p.name = name := by
  have seen : name ∈ last.seen := by
    rcases has with seen | waits
    · exact seen
    · rw [empty] at waits
      cases waits
  rw [← mem_reverse, ← underway.packages] at seen
  obtain ⟨p, mem, named⟩ := mem_map.mp seen
  exact ⟨p, mem, named⟩

theorem version_of_noted (underway : Underway w last) {p : LockedPackage}
    (mem : p ∈ last.state.packages) (noted : last.state.constraints.lookup p.name = some c) :
    ∃ v, resolve w p.name c = .ok v ∧ p.version = v.version := by
  obtain ⟨c', v, here, chosen, lock⟩ := underway.locked p mem
  rw [noted, Option.some.injEq] at here
  subst here
  exact ⟨v, chosen, (lockPackage_spec lock).2.1⟩

/-- When all visits are compatible, the constraints that stand meet those of the packages. -/
theorem met_of_compatible (compatible : Compatible w (firstRound w m requested))
    {f : Frontier String Progress}
    (reached : Worklist.Reached (installs w) (firstRound w m requested) f) :
    ∀ p ∈ f.state.packages, ∀ dep c, p.dependencies.lookup dep = some c →
      Meets w f.state.constraints dep c := by
  induction reached with
  | refl =>
    intro p mem
    cases mem
  | @tail f f' reached step ih =>
    have underway := underway_reached reached
    rcases round_cases underway step with ⟨name, rest, queue, -, rfl⟩ | ⟨name, c₀, v, lp, visit⟩
    · exact ih
    · have spec := lockPackage_spec visit.lock
      intro p mem dep c here noted after chosen ok
      rw [visit.packages] at mem
      rcases mem_append.mp mem with before | now
      · -- a constraint on a package that is known already has been noted before
        obtain ⟨c₁, known⟩ := mem_constraints.mp
          (underway.noted dep (underway.queued p before dep (mem_constraints.mpr ⟨c, here⟩)))
        have same := visit.kept dep c₁ known
        rw [after, Option.some.injEq] at same
        rw [← same] at known
        exact ih p before dep c here noted known chosen ok
      · rw [mem_singleton.mp now] at here
        obtain ⟨c₁, after', known | ⟨-, rfl⟩⟩ := visit.own dep c here
        · rw [after, Option.some.injEq] at after'
          rw [← after'] at known
          obtain ⟨rest, queue⟩ := visit.head
          have choice : resolve w name ((f.state.constraints.lookup name).getD "") = .ok v := by
            rw [visit.constraint]
            exact visit.chosen
          rw [spec.2.2] at here
          exact compatible f reached name rest queue visit.fresh v choice dep c here noted known
            chosen ok
        · rw [after, Option.some.injEq] at after'
          subst after'
          exact (resolve_spec ok).1

/-- When the locked versions meet the constraints of the packages, all visits were
    compatible. -/
theorem compatible_of_met
    (finishes : Finishes (installs w) (firstRound w m requested) (.ok last))
    (met : ∀ p ∈ last.state.packages, ∀ q ∈ last.state.packages, ∀ c,
      p.dependencies.lookup q.name = some c → satisfies q.version c = true) :
    Compatible w (firstRound w m requested) := by
  intro f reached name rest queue fresh v choice dep c here noted known chosen ok
  have underway := underway_reached reached
  have end' := underway_reached finishes.reached
  have empty := (finishes.invariant (P := fun _ => True) (fun _ _ _ _ => trivial) trivial).2
  -- the visit succeeds, as the loop does
  obtain ⟨f', step⟩ : ∃ f', next (installs w) f = some (.ok f') := by
    cases finishes.from_reached reached with
    | done none =>
      rw [queue_of_next_none none] at queue
      cases queue
    | round step _ => exact ⟨_, step⟩
  rcases round_cases underway step with ⟨name', rest', queue', old, -⟩ | ⟨name', c₀, v', lp, visit⟩
  · rw [queue] at queue'
    cases queue'
    exact absurd old fresh
  · obtain ⟨rest', queue'⟩ := visit.head
    rw [queue] at queue'
    cases queue'
    rw [visit.constraint, Option.getD_some, visit.chosen, Except.ok.injEq] at choice
    subst choice
    have rest'' : Worklist.Reached (installs w) f' last :=
      (finishes.from_reached (reached.tail step)).reached
    have spec := lockPackage_spec visit.lock
    have lpLast : lp ∈ last.state.packages := by
      apply locked_reached (underway.next step) rest''
      rw [visit.packages]
      exact mem_append_right _ (mem_singleton_self lp)
    rw [← spec.2.2] at here
    obtain ⟨q, qLast, rfl⟩ := locked_of_has end' empty
      (end'.queued lp lpLast dep (mem_constraints.mpr ⟨c, here⟩))
    have stands : last.state.constraints.lookup q.name = some noted :=
      noted_reached (underway.next step) rest'' (visit.kept _ _ known)
    obtain ⟨u, chosen', version⟩ := version_of_noted end' qLast stands
    rw [ok, Except.ok.injEq] at chosen'
    rw [chosen', ← version]
    exact met lp lpLast q qLast c here

theorem Installed.spec {lock : LockFile} (installed : Installed w m requested lock) :
    ∃ last, Finishes (installs w) (firstRound w m requested) (.ok last) ∧
      lock.packages.Perm last.state.packages := by
  obtain ⟨rounds, ran⟩ := installed
  unfold install at ran
  split at ran
  · cases ran
  · obtain ⟨result, looped, finished⟩ := Option.map_eq_some_iff.mp ran
    simp only [bind_eq_ok_iff] at finished
    obtain ⟨last, rfl, -, -, finished⟩ := finished
    cases finished
    exact ⟨last, run_finishes looped, perm_insertionSort _ _⟩

/-- A successful installation locks the dependencies of the manifest and of all locked
    packages, each once, in versions that meet the manifest's constraints: it is sound when
    the constraints of the packages are met. -/
theorem Installed.complete {lock : LockFile} (installed : Installed w m requested lock)
    (met : ∀ p ∈ lock.packages, ∀ q ∈ lock.packages, ∀ c,
      p.dependencies.lookup q.name = some c → satisfies q.version c = true) :
    LockSound w (manifestDependencies w m requested) lock := by
  obtain ⟨last, finishes, perm⟩ := installed.spec
  have underway := underway_reached finishes.reached
  have empty := (finishes.invariant (P := fun _ => True) (fun _ _ _ _ => trivial) trivial).2
  refine ⟨?_, ?_, ?_, ?_, ?_, met⟩
  · intro p mem
    obtain ⟨c, v, -, chosen, lock⟩ := underway.locked p (perm.mem_iff.mp mem)
    obtain ⟨-, versions, found, listed⟩ := resolve_spec chosen
    exact ⟨versions, v, found, listed, (lockPackage_spec lock).2⟩
  · intro name root
    have has : (firstRound w m requested).Has name :=
      Or.inr ((mem_insertionSort _).mpr (AList.mem_keys.mp root))
    obtain ⟨p, mem, named⟩ := locked_of_has underway empty (Or.inl (finishes.has has))
    exact ⟨p, perm.mem_iff.mpr mem, named⟩
  · intro p mem dep needed
    obtain ⟨q, qLast, named⟩ := locked_of_has underway empty
      (underway.queued p (perm.mem_iff.mp mem) dep needed)
    exact ⟨q, perm.mem_iff.mpr qLast, named⟩
  · have distinct : last.seen.Nodup :=
      (finishes.invariant (P := fun f => f.seen.Nodup)
        (fun _ _ nodup step => seen_nodup_next step nodup) nodup_nil).1
    rw [(perm.map LockedPackage.name).nodup_iff, underway.packages]
    exact nodup_reverse.mpr distinct
  · intro p mem c root
    have stands : last.state.constraints.lookup p.name = some c :=
      noted_reached (underway_first w m requested) finishes.reached root
    obtain ⟨v, chosen, version⟩ := version_of_noted underway (perm.mem_iff.mp mem) stands
    rw [version]
    exact (resolve_spec chosen).1

end End

/-! ## Two packages that want different versions of a third -/

/-- What the versions of a package depend on: `a` and `b` both need `c`. -/
def clashDependencies : String → StringMap String
  | "a" => AList.singleton "c" "^1.0.0"
  | "b" => AList.singleton "c" "^2.0.0"
  | _ => ∅

/-- A registry with two versions of every package. -/
def clashWorld : World where
  os := "linux"
  arch := "amd64"
  rewriteManifest _ := .ok ()
  fetchIndex name := .ok
    { name := name
      versions := ["1.0.0", "2.0.0"].map fun version =>
        { version := version, url := "u", sha256 := "s", dependencies := clashDependencies name } }
  fetchArchive name _ := .ok
    ({ name := name, kryndel := "*", dependencies := clashDependencies name }, "s")
  downloadURL v := v.url
  unpack _ _ := .ok ()
  writeLock _ := .ok ()

/-- A project that depends on `a` and `b`. -/
def clashManifest : PackageManifest where
  name := "app"
  kryndel := "*"
  dependencies := (AList.singleton "b" "*").insert "a" "*"

/-- A package of the registry, locked. -/
def clashPackage (name version : String) : LockedPackage :=
  ⟨name, version, "u", "s", clashDependencies name⟩

/-- The lock file of the project: `c` in the version that `a` wants. -/
def clashLock : LockFile where
  packages := [clashPackage "a" "2.0.0", clashPackage "b" "2.0.0", clashPackage "c" "1.0.0"]

/-- A project that depends on `c` alone. -/
def calmManifest : PackageManifest where
  name := "app"
  kryndel := "*"
  dependencies := AList.singleton "c" "*"

/-- Its lock file. -/
def calmLock : LockFile where
  packages := [clashPackage "c" "2.0.0"]

end Kryndel
