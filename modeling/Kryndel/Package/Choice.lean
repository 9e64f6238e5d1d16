import Mathlib.Data.Prod.Lex
import Mathlib.Order.WithBot
import Kryndel.Package.Resolution
import Kryndel.Systems.Sorting

/-!
# Which version is chosen

The versions that meet a constraint are those from its base up to a bound. Of the entries of an
index that meet it, one with the greatest version is chosen. The entries are sorted by a sort
that need not be stable, so that where two entries have this version, the choice depends on the
order in which they are listed: an index may list a version a second time in another spelling.
-/

namespace Kryndel

open Sorting Option

/-! ## The versions that meet a constraint -/

/-- The components of a version, the most significant one first. -/
def SemanticVersion.rank (v : SemanticVersion) : ℕ ×ₗ ℕ ×ₗ ℕ :=
  toLex (v.major.toNat, toLex (v.minor.toNat, v.patch.toNat))

/-- The first version beyond those that meet a constraint. -/
def VersionConstraint.upper (c : VersionConstraint) : WithTop (ℕ ×ₗ ℕ ×ₗ ℕ) :=
  let base := c.version
  match c.operator with
  | .any | .atLeast => ⊤
  | .caret =>
    if base.major > 0 then ↑(toLex (base.major.toNat + 1, toLex (0, 0)))
    else if base.minor > 0 then ↑(toLex (0, toLex (base.minor.toNat + 1, 0)))
    else ↑(toLex (0, toLex (0, base.patch.toNat + 1)))
  | .tilde => ↑(toLex (base.major.toNat, toLex (base.minor.toNat + 1, 0)))
  | .exact => ↑(toLex (base.major.toNat, toLex (base.minor.toNat, base.patch.toNat + 1)))

section Ranks

variable {a b v : SemanticVersion} {c : VersionConstraint}

theorem rank_le : a.rank ≤ b.rank ↔ a.major.toNat < b.major.toNat ∨
    a.major.toNat = b.major.toNat ∧ (a.minor.toNat < b.minor.toNat ∨
      a.minor.toNat = b.minor.toNat ∧ a.patch.toNat ≤ b.patch.toNat) := by
  simp [SemanticVersion.rank, Prod.Lex.toLex_le_toLex]

theorem rank_lt {major minor patch : ℕ} :
    v.rank < toLex (major, toLex (minor, patch)) ↔ v.major.toNat < major ∨
      v.major.toNat = major ∧ (v.minor.toNat < minor ∨
        v.minor.toNat = minor ∧ v.patch.toNat < patch) := by
  simp [SemanticVersion.rank, Prod.Lex.toLex_lt_toLex]

theorem rank_injective (h : a.rank = b.rank) : a = b := by
  simp only [SemanticVersion.rank, EmbeddingLike.apply_eq_iff_eq, Prod.mk.injEq,
    UInt64.toNat_inj] at h
  obtain ⟨major, minor, patch⟩ := a
  obtain ⟨rfl, rfl, rfl⟩ := h
  rfl

theorem compare_toNat (x y : UInt64) : compare x y = compare x.toNat y.toNat := by
  simp only [compare, compareOfLessAndEq, UInt64.lt_iff_toNat_lt, UInt64.toNat_inj]

theorem compareSemanticVersions_isGE :
    (compareSemanticVersions a b).isGE = true ↔ b.rank ≤ a.rank := by
  rw [compareSemanticVersions, compare_toNat, compare_toNat, compare_toNat, rank_le,
    Nat.compare_eq_ite_lt, Nat.compare_eq_ite_lt, Nat.compare_eq_ite_lt]
  split_ifs <;> simp only [Ordering.then, Ordering.isGE] <;> grind

theorem compareSemanticVersions_eq : compareSemanticVersions a b = .eq ↔ a.rank = b.rank := by
  rw [compareSemanticVersions, compare_toNat, compare_toNat, compare_toNat,
    le_antisymm_iff (a := a.rank), rank_le, rank_le, Nat.compare_eq_ite_lt,
    Nat.compare_eq_ite_lt, Nat.compare_eq_ite_lt]
  split_ifs <;> simp only [Ordering.then] <;> grind

theorem VersionConstraint.base_lt_upper : (c.version.rank : WithTop _) < c.upper := by
  unfold upper
  cases c.operator
  case any | atLeast => exact WithTop.coe_lt_top _
  case caret =>
    dsimp only
    split_ifs with hmajor hminor
    · rw [WithTop.coe_lt_coe, rank_lt]
      omega
    · rw [gt_iff_lt, UInt64.lt_iff_toNat_lt] at hmajor
      rw [WithTop.coe_lt_coe, rank_lt]
      simp only [UInt64.toNat_zero] at hmajor
      omega
    · rw [gt_iff_lt, UInt64.lt_iff_toNat_lt] at hmajor hminor
      rw [WithTop.coe_lt_coe, rank_lt]
      simp only [UInt64.toNat_zero] at hmajor hminor
      omega
  case tilde | exact =>
    rw [WithTop.coe_lt_coe, rank_lt]
    omega

theorem any_base {constraint : String} (hc : parseVersionConstraint constraint = some c)
    (hany : c.operator = .any) : c.version = default := by
  simp only [parseVersionConstraint] at hc
  split at hc
  · cases hc
    rfl
  all_goals
    obtain ⟨v, -, rfl⟩ := map_eq_some_iff.mp hc
    cases hany

theorem satisfies_iff {version constraint : String}
    (hc : parseVersionConstraint constraint = some c) :
    satisfies version constraint = true ↔ ∃ v, parseSemanticVersion version = some v ∧
      c.version.rank ≤ v.rank ∧ (v.rank : WithTop _) < c.upper := by
  rw [satisfies, hc]
  cases hv : parseSemanticVersion version with
  | none => simp
  | some v =>
    simp only [Option.some.injEq, exists_eq_left', VersionConstraint.upper]
    cases hoperator : c.operator
    case any =>
      have hleast : (default : SemanticVersion).rank ≤ v.rank := by
        have hmajor : (default : SemanticVersion).major.toNat = 0 := rfl
        have hminor : (default : SemanticVersion).minor.toNat = 0 := rfl
        have hpatch : (default : SemanticVersion).patch.toNat = 0 := rfl
        rw [rank_le]
        omega
      simp [any_base hc hoperator, hleast]
    case atLeast => simp [compareSemanticVersions_isGE]
    case caret =>
      split_ifs with hmajor hminor
      · simp only [Bool.and_eq_true, beq_iff_eq, compareSemanticVersions_isGE, WithTop.coe_lt_coe,
          rank_lt, rank_le, ← UInt64.toNat_inj]
        omega
      · simp only [Bool.and_eq_true, beq_iff_eq, compareSemanticVersions_isGE, WithTop.coe_lt_coe,
          rank_lt, rank_le, ← UInt64.toNat_inj, gt_iff_lt, UInt64.lt_iff_toNat_lt,
          UInt64.toNat_zero] at hmajor ⊢
        omega
      · simp only [Bool.and_eq_true, beq_iff_eq, WithTop.coe_lt_coe,
          rank_lt, rank_le, ← UInt64.toNat_inj, gt_iff_lt, UInt64.lt_iff_toNat_lt,
          UInt64.toNat_zero] at hmajor hminor ⊢
        omega
    case tilde =>
      simp only [Bool.and_eq_true, beq_iff_eq, compareSemanticVersions_isGE, WithTop.coe_lt_coe,
        rank_lt, rank_le, ← UInt64.toNat_inj]
      omega
    case exact =>
      simp only [beq_iff_eq, compareSemanticVersions_eq, WithTop.coe_lt_coe, rank_lt,
        le_antisymm_iff (a := v.rank), rank_le]
      omega

end Ranks

/-! ## The index -/

/-- `index`, up to the sort. -/
def readIndex (w : World) (name : String) : Except PackageError (List RegistryVersion) := do
  if !validPackageName name then throw (.invalidPackageName name)
  let idx ← w.fetchIndex name
  if idx.name != name then throw .indexNameMismatch
  checkVersions name [] idx.versions
  return idx.versions

/-- The registry with the versions of one package in another order. -/
def World.relist (w : World) (name : String) (versions : List RegistryVersion) : World :=
  { w with fetchIndex := fun other => do
      let idx ← w.fetchIndex other
      return if other = name then { idx with versions } else idx }

/-- The version of an entry, by which an index is sorted. -/
def RegistryVersion.rank (v : RegistryVersion) : ℕ ×ₗ ℕ ×ₗ ℕ :=
  ((parseSemanticVersion v.version).getD default).rank

/-- An entry meets a constraint. -/
def Suits (constraint : String) (v : RegistryVersion) : Bool :=
  satisfies v.version constraint

/-- `resolve` may choose an entry: `sort.Slice` is not stable, and may leave entries with equal
    versions in any order. -/
def ResolvesTo (w : World) (name constraint : String) (v : RegistryVersion) : Prop :=
  (parseVersionConstraint constraint).isSome ∧ ∃ listed versions, readIndex w name = .ok listed ∧
    Descends RegistryVersion.rank listed versions ∧ versions.find? (Suits constraint) = some v

section Index

variable {w : World} {name constraint : String} {listed versions : List RegistryVersion}

/-- An entry passes the checks that look at it alone. -/
def ListedSound (v : RegistryVersion) : Prop :=
  validVersion v.version = true ∧ validateDependencyConstraints v.dependencies = .ok () ∧
    (v.targetDependencies.entries.forM fun entry => validateDependencyConstraints entry.2) =
      .ok ()

theorem checkVersions_eq_ok {seen : List String} :
    checkVersions name seen versions = .ok () ↔ (∀ v ∈ versions, ListedSound v) ∧
      (versions.map RegistryVersion.version).Nodup ∧ ∀ v ∈ versions, v.version ∉ seen := by
  induction versions generalizing seen with
  | nil => simp [checkVersions]
  | cons v versions ih =>
    have hstep : checkVersions name seen (v :: versions) = .ok () ↔
        ListedSound v ∧ v.version ∉ seen ∧
          checkVersions name (v.version :: seen) versions = .ok () := by
      rw [checkVersions, ListedSound]
      by_cases hvalid : validVersion v.version = true
      · by_cases hseen : v.version ∈ seen
        · simp [hvalid, hseen, throw, throwThe, MonadExceptOf.throw, bind, Except.bind]
        · simp only [hvalid, hseen, Bool.not_true, Bool.false_eq_true, if_false, bind_eq_ok_iff,
            true_and, not_false_eq_true, and_assoc]
          constructor
          · intro h
            obtain ⟨_, hdependencies, _, htargets, hrest⟩ := h
            exact ⟨hdependencies, htargets, hrest⟩
          · intro h
            exact ⟨(), h.1, (), h.2.1, h.2.2⟩
      · simp [hvalid, throw, throwThe, MonadExceptOf.throw, bind, Except.bind]
    rw [hstep, ih]
    grind

variable {listed' : List RegistryVersion}

theorem checkVersions_perm (hperm : listed'.Perm listed)
    (h : checkVersions name [] listed = .ok ()) :
    checkVersions name [] listed' = .ok () := by
  obtain ⟨hsound, hnodup, -⟩ := checkVersions_eq_ok.mp h
  apply checkVersions_eq_ok.mpr
  refine ⟨fun v hv => hsound v (hperm.mem_iff.mp hv), ?_, fun v _ => List.not_mem_nil⟩
  exact (hperm.map RegistryVersion.version).nodup_iff.mpr hnodup

theorem readIndex_eq_ok : readIndex w name = .ok listed ↔ validPackageName name = true ∧
    ∃ idx, w.fetchIndex name = .ok idx ∧ idx.name = name ∧ checkVersions name [] listed = .ok () ∧
      idx.versions = listed := by
  unfold readIndex
  by_cases hname : validPackageName name = true
  · simp only [hname, Bool.not_true, Bool.false_eq_true, if_false, true_and]
    constructor
    · intro h
      obtain ⟨idx, hfetched, h⟩ := bind_eq_ok_iff.mp h
      refine ⟨idx, hfetched, ?_⟩
      by_cases hsame : idx.name = name
      · simp only [hsame, bne_self_eq_false, Bool.false_eq_true, if_false] at h
        obtain ⟨_, hchecked, h⟩ := bind_eq_ok_iff.mp h
        cases h
        exact ⟨hsame, hchecked, rfl⟩
      · simp [hsame, throw, throwThe, MonadExceptOf.throw, bind, Except.bind] at h
    · intro h
      obtain ⟨idx, hfetched, hsame, hchecked, rfl⟩ := h
      simp [hfetched, hsame, hchecked, bind, Except.bind, pure, Except.pure]
  · simp [hname, throw, throwThe, MonadExceptOf.throw, bind, Except.bind]

theorem index_eq : index w name = (readIndex w name).map
    (List.insertionSort fun a b => compareVersion a.version b.version ≠ .lt) := by
  unfold index readIndex
  by_cases hname : validPackageName name = true
  · simp only [hname]
    cases w.fetchIndex name with
    | error e => rfl
    | ok idx =>
      by_cases hsame : idx.name = name
      · simp [hsame, bind, Except.bind]
        cases checkVersions name [] idx.versions <;> rfl
      · simp [hsame, throw, throwThe, MonadExceptOf.throw, bind, Except.bind, Except.map]
  · simp [hname, throw, throwThe, MonadExceptOf.throw, bind, Except.bind, Except.map]

theorem readIndex_relist (h : readIndex w name = .ok listed) (hperm : listed'.Perm listed) :
    readIndex (w.relist name listed') name = .ok listed' := by
  obtain ⟨hname, idx, hfetched, hsame, hchecked, -⟩ := readIndex_eq_ok.mp h
  refine readIndex_eq_ok.mpr ⟨hname, { idx with versions := listed' }, ?_, hsame,
    checkVersions_perm hperm hchecked, rfl⟩
  simp [World.relist, hfetched, bind, Except.bind, pure, Except.pure]

theorem entries_of_readIndex (h : readIndex w name = .ok listed) :
    (∀ v ∈ listed, ListedSound v) ∧ (listed.map RegistryVersion.version).Nodup := by
  obtain ⟨-, -, -, -, hchecked, -⟩ := readIndex_eq_ok.mp h
  obtain ⟨hsound, hnodup, -⟩ := checkVersions_eq_ok.mp hchecked
  exact ⟨hsound, hnodup⟩

theorem compareVersion_ne_lt {a b : RegistryVersion} (ha : ListedSound a) (hb : ListedSound b) :
    compareVersion a.version b.version ≠ .lt ↔ b.rank ≤ a.rank := by
  obtain ⟨u, hu⟩ := isSome_iff_exists.mp ha.1
  obtain ⟨v, hv⟩ := isSome_iff_exists.mp hb.1
  rw [compareVersion, hu, hv, RegistryVersion.rank, RegistryVersion.rank, hu, hv,
    getD_some, getD_some, ← compareSemanticVersions_isGE]
  show compareSemanticVersions u v ≠ .lt ↔ _
  cases compareSemanticVersions u v <;> simp

theorem resolvesTo_of_resolve {v : RegistryVersion} (h : resolve w name constraint = .ok v) :
    ResolvesTo w name constraint v := by
  unfold resolve at h
  cases hc : parseVersionConstraint constraint with
  | none => simp [hc, throw, throwThe, MonadExceptOf.throw, bind, Except.bind] at h
  | some c =>
    simp only [hc, isNone_some, Bool.false_eq_true, if_false] at h
    obtain ⟨versions, hindex, h⟩ := bind_eq_ok_iff.mp h
    rw [index_eq] at hindex
    cases hlisted : readIndex w name with
    | error e =>
      rw [hlisted] at hindex
      cases hindex
    | ok listed =>
      rw [hlisted] at hindex
      cases hindex
      have hsound := (entries_of_readIndex hlisted).1
      refine ⟨by rw [hc]; rfl, listed, _, hlisted, descends_insertionSort fun a ha b hb =>
        compareVersion_ne_lt (hsound a ha) (hsound b hb), ?_⟩
      split at h
      · next first hfirst =>
        cases h
        exact hfirst
      · cases h

end Index

/-! ## When the order does not matter -/

/-- A version that meets the constraint is listed in two spellings only below a greater one that
    meets it. -/
def NewestListedOnce (constraint : String) (listed : List RegistryVersion) : Prop :=
  ∀ a ∈ listed, ∀ b ∈ listed, Suits constraint a = true → a.version ≠ b.version →
    parseSemanticVersion a.version = parseSemanticVersion b.version →
      ∃ u ∈ listed, Suits constraint u = true ∧ a.rank < u.rank

/-- What is promised of the choice for a constraint. -/
structure ChoiceSound (w : World) (name constraint : String) (listed : List RegistryVersion) :
    Prop where
  /-- There is a choice where some entry meets the constraint. -/
  found : (∃ v, ResolvesTo w name constraint v) ↔ ∃ u ∈ listed, Suits constraint u = true
  greatest : ∀ v, ResolvesTo w name constraint v →
    Greatest RegistryVersion.rank (Suits constraint) listed v
  /-- It is the same in every order of the index. -/
  same : ∀ listed', listed'.Perm listed → ∀ v v', ResolvesTo w name constraint v →
    ResolvesTo (w.relist name listed') name constraint v' → v = v'

section Choice

variable {w : World} {name constraint : String} {listed : List RegistryVersion}
  {c : VersionConstraint}

theorem resolvesTo_iff (hlisted : readIndex w name = .ok listed)
    (hc : parseVersionConstraint constraint = some c) {v : RegistryVersion} :
    ResolvesTo w name constraint v ↔ Greatest RegistryVersion.rank (Suits constraint) listed v := by
  constructor
  · intro h
    obtain ⟨-, listed', versions, hlisted', hsorted, hfirst⟩ := h
    rw [hlisted] at hlisted'
    cases hlisted'
    exact hsorted.find?_greatest hfirst
  · intro h
    obtain ⟨versions, hsorted, hfirst⟩ := h.found_first
    exact ⟨by rw [hc]; rfl, listed, versions, hlisted, hsorted, hfirst⟩

theorem parse_eq_of_rank {a b : RegistryVersion} (ha : ListedSound a) (hb : ListedSound b)
    (h : a.rank = b.rank) : parseSemanticVersion a.version = parseSemanticVersion b.version := by
  obtain ⟨u, hu⟩ := isSome_iff_exists.mp ha.1
  obtain ⟨v, hv⟩ := isSome_iff_exists.mp hb.1
  rw [RegistryVersion.rank, RegistryVersion.rank, hu, hv] at h
  have hversion : u = v := rank_injective h
  rw [hu, hv, hversion]

theorem rank_eq_of_parse {a b : RegistryVersion}
    (h : parseSemanticVersion a.version = parseSemanticVersion b.version) : a.rank = b.rank := by
  rw [RegistryVersion.rank, RegistryVersion.rank, h]

theorem suits_eq_of_parse {a b : RegistryVersion}
    (h : parseSemanticVersion a.version = parseSemanticVersion b.version) :
    Suits constraint a = Suits constraint b := by
  rw [Suits, Suits, satisfies, satisfies, h]

/-- For an index that is accepted and a constraint that can be read, the version that is chosen
    meets the constraint and no greater one does; the versions that meet it are those from its
    base up to a bound. The choice is the same in every order of the index exactly when the
    greatest version that meets the constraint is not listed in a second spelling. -/
theorem choice_determined_iff (hlisted : readIndex w name = .ok listed)
    (hc : parseVersionConstraint constraint = some c) :
    (ChoiceSound w name constraint listed ∧
        (∀ version, satisfies version constraint = true ↔ ∃ v,
          parseSemanticVersion version = some v ∧ c.version.rank ≤ v.rank ∧
            (v.rank : WithTop _) < c.upper) ∧
        (c.version.rank : WithTop _) < c.upper) ↔
      NewestListedOnce constraint listed := by
  obtain ⟨hsound, hnodup⟩ := entries_of_readIndex hlisted
  constructor
  · intro h a ha b hb hsuits hspelling hparse
    by_contra hnone
    have hgreatest : Greatest RegistryVersion.rank (Suits constraint) listed a :=
      ⟨ha, hsuits, fun u hu hsuits' => le_of_not_gt fun hlt => hnone ⟨u, hu, hsuits', hlt⟩⟩
    have hgreatest' : Greatest RegistryVersion.rank (Suits constraint) listed b := by
      refine ⟨hb, by rw [← suits_eq_of_parse hparse, hsuits], fun u hu hsuits' => ?_⟩
      rw [← rank_eq_of_parse hparse]
      exact hgreatest.2.2 u hu hsuits'
    have heq := h.1.same listed (List.Perm.refl _) a b ((resolvesTo_iff hlisted hc).mpr hgreatest)
      ((resolvesTo_iff (readIndex_relist hlisted (List.Perm.refl _)) hc).mpr hgreatest')
    exact hspelling (congrArg RegistryVersion.version heq)
  · intro honce
    refine ⟨⟨?_, fun v => (resolvesTo_iff hlisted hc).mp, ?_⟩, fun version => satisfies_iff hc,
      VersionConstraint.base_lt_upper⟩
    · constructor
      · intro h
        obtain ⟨v, hv⟩ := h
        obtain ⟨hmem, hsuits, -⟩ := (resolvesTo_iff hlisted hc).mp hv
        exact ⟨v, hmem, hsuits⟩
      · intro h
        obtain ⟨v, hv⟩ := exists_greatest RegistryVersion.rank h
        exact ⟨v, (resolvesTo_iff hlisted hc).mpr hv⟩
    · intro listed' hperm v v' hv hv'
      have hgreatest := (resolvesTo_iff hlisted hc).mp hv
      have hgreatest' := ((resolvesTo_iff (readIndex_relist hlisted hperm) hc).mp hv').of_perm
        hperm.symm
      have hrank := hgreatest.key_eq hgreatest'
      by_cases hspelling : v.version = v'.version
      · exact List.inj_on_of_nodup_map hnodup hgreatest.1 hgreatest'.1 hspelling
      · obtain ⟨u, hu, hsuits, hlt⟩ := honce v hgreatest.1 v' hgreatest'.1 hgreatest.2.1 hspelling
          (parse_eq_of_rank (hsound v hgreatest.1) (hsound v' hgreatest'.1) hrank)
        exact absurd (hgreatest.2.2 u hu hsuits) (not_le_of_gt hlt)

end Choice

/-! ## A version in two spellings -/

/-- A registry that lists a version twice. -/
def spelledWorld : World :=
  { clashWorld with
    fetchIndex := fun name => .ok
      { name, versions := [{ version := "1.0.0" }, { version := "v1.0.0" }] } }

/-- The check for duplicates compares spellings. The entry that is listed first is chosen. -/
theorem spelling_changes_choice :
    readIndex spelledWorld "util" = .ok [{ version := "1.0.0" }, { version := "v1.0.0" }] ∧
      resolve spelledWorld "util" "^1.0.0" = .ok { version := "1.0.0" } ∧
      resolve (spelledWorld.relist "util" [{ version := "v1.0.0" }, { version := "1.0.0" }]) "util"
        "^1.0.0" = .ok { version := "v1.0.0" } := by
  refine ⟨rfl, rfl, rfl⟩

/-- The versions of `c`. -/
def plainVersions : List RegistryVersion :=
  ["1.0.0", "2.0.0"].map fun version => { version := version, url := "u", sha256 := "s" }

theorem plain_choice : ChoiceSound clashWorld "c" "^1.0.0" plainVersions := by
  have hlisted : readIndex clashWorld "c" = .ok plainVersions := rfl
  refine ((choice_determined_iff hlisted (c := ⟨.caret, ⟨1, 0, 0⟩⟩) (by decide)).mpr ?_).1
  intro a ha b hb _ hspelling hparse
  refine absurd hparse ?_
  simp only [plainVersions, List.map_cons, List.map_nil, List.mem_cons, List.not_mem_nil,
    or_false] at ha hb
  rcases ha with rfl | rfl <;> rcases hb with rfl | rfl
  · exact absurd rfl hspelling
  · decide
  · decide
  · exact absurd rfl hspelling

end Kryndel
