import Kryndel.Systems.Assoc
import Mathlib.Data.List.Basic

/-!
# Recency

The uses of some keys are written down with their times, the latest one first. Of two keys the
one whose last use stands further in front has been used more recently. Where times differ they
tell which one that is; where they do not, only the order of the uses does.
-/

namespace Recency

open List

variable {κ : Type}

/-- The uses up to a time, in their order. -/
structure Ordered (now : Nat) (uses : List (κ × Nat)) : Prop where
  past : ∀ use ∈ uses, use.2 ≤ now
  sorted : uses.Pairwise fun newer older => older.2 ≤ newer.2

/-- The first key has been used more recently than the second one. -/
def Later [DecidableEq κ] (uses : List (κ × Nat)) (a b : κ) : Prop :=
  (uses.map (·.1)).idxOf a < (uses.map (·.1)).idxOf b

variable {now : Nat} {uses : List (κ × Nat)} {a b : κ} {t u : Nat}

theorem ordered_nil (now : Nat) : Ordered now ([] : List (κ × Nat)) where
  past := by
    intro use huse
    cases huse
  sorted := List.Pairwise.nil

theorem Ordered.mono (h : Ordered now uses) {later : Nat} (hle : now ≤ later) :
    Ordered later uses where
  past use huse := Nat.le_trans (h.past use huse) hle
  sorted := h.sorted

theorem Ordered.cons (h : Ordered now uses) (k : κ) : Ordered now ((k, now) :: uses) where
  past := by
    intro use huse
    rcases mem_cons.mp huse with rfl | huse
    · exact Nat.le_refl now
    · exact h.past use huse
  sorted := List.Pairwise.cons h.past h.sorted

variable [DecidableEq κ]

theorem later_of_lt (h : Ordered now uses) (ha : uses.lookup a = some t)
    (hb : uses.lookup b = some u) (hlt : u < t) : Later uses a b := by
  induction uses with
  | nil => cases ha
  | cons use uses ih =>
    obtain ⟨k, s⟩ := use
    unfold Later
    rw [lookup_cons] at ha hb
    by_cases hka : a = k
    · -- The use in front is that of the first key, and not that of the second one.
      have hkb : b ≠ k := by
        rintro rfl
        rw [hka] at ha
        rw [BEq.rfl] at ha hb
        have htimes := (Option.some.inj ha).symm.trans (Option.some.inj hb)
        exact absurd htimes (Nat.ne_of_gt hlt)
      rw [map_cons, hka, idxOf_cons_self, idxOf_cons_ne _ (Ne.symm hkb)]
      exact Nat.succ_pos _
    · rw [beq_eq_false_iff_ne.mpr hka] at ha
      by_cases hkb : b = k
      · rw [hkb, BEq.rfl] at hb
        have hle := rel_of_pairwise_cons h.sorted (Assoc.mem_of_lookup ha)
        rw [Option.some.inj hb] at hle
        exact absurd hlt (Nat.not_lt.mpr hle)
      · rw [beq_eq_false_iff_ne.mpr hkb] at hb
        rw [map_cons, idxOf_cons_ne _ (Ne.symm hka), idxOf_cons_ne _ (Ne.symm hkb)]
        apply Nat.succ_lt_succ
        exact ih ⟨fun use huse => h.past use (mem_cons_of_mem _ huse),
          h.sorted.of_cons⟩ ha hb

theorem Later.asymm (h : Later uses a b) : ¬ Later uses b a := Nat.lt_asymm h

end Recency
