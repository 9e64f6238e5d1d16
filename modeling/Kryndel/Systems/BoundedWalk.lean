import Mathlib.Data.List.Basic
import Mathlib.Logic.Relation

/-!
# Walks with a bound

A walk over a graph checks a node and then the nodes after it, for some number of levels,
and fails where they run out. It succeeds when all nodes it can reach are good and no path
is as long as the number of levels.
-/

namespace BoundedWalk

variable {α β : Type} (good : α → Bool) (next : α → List α)

/-- The check of a node and of all that come after it, with the number of levels left. -/
def walk : Nat → α → Bool
  | 0, _ => false
  | n + 1, a => good a && (next a).all (walk n)

/-- Some path of a length starts at a node. -/
def HasPath : Nat → α → Prop
  | 0, _ => True
  | n + 1, a => ∃ b ∈ next a, HasPath n b

/-- A node comes after another, or is the same. -/
def Reaches : α → α → Prop := Relation.ReflTransGen fun a b => b ∈ next a

variable {good next}

theorem walk_succ (n : Nat) (a : α) :
    walk good next (n + 1) a = true ↔ good a = true ∧ ∀ b ∈ next a, walk good next n b = true := by
  rw [walk, Bool.and_eq_true, List.all_eq_true]

theorem Reaches.cases_head {a b : α} (h : Reaches next a b) :
    a = b ∨ ∃ c ∈ next a, Reaches next c b := by
  rcases Relation.ReflTransGen.cases_head h with rfl | ⟨c, hc, hrest⟩
  · exact Or.inl rfl
  · exact Or.inr ⟨c, hc, hrest⟩

theorem Reaches.step {a b c : α} (h : b ∈ next a) (hrest : Reaches next b c) :
    Reaches next a c :=
  Relation.ReflTransGen.head h hrest

theorem walk_iff (n : Nat) (a : α) : walk good next n a = true ↔
    ¬ HasPath next n a ∧ ∀ b, Reaches next a b → good b = true := by
  induction n generalizing a with
  | zero => simp [walk, HasPath]
  | succ n ih =>
    rw [walk_succ]
    constructor
    · rintro ⟨hgood, hnext⟩
      refine ⟨?_, ?_⟩
      · rintro ⟨b, hb, hpath⟩
        exact ((ih b).mp (hnext b hb)).1 hpath
      · intro b hreach
        rcases hreach.cases_head with rfl | ⟨c, hc, hrest⟩
        · exact hgood
        · exact ((ih c).mp (hnext c hc)).2 b hrest
    · rintro ⟨hpath, hall⟩
      refine ⟨hall a Relation.ReflTransGen.refl, ?_⟩
      intro b hb
      refine (ih b).mpr ⟨?_, ?_⟩
      · intro hlong
        exact hpath ⟨b, hb, hlong⟩
      · intro c hreach
        exact hall c (Reaches.step hb hreach)

end BoundedWalk
