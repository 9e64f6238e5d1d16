import Mathlib.Data.List.Basic

/-!
# Lexical scoping with declarations that take effect in order

A block-structured language in which a declaration extends the block it stands in
from that point on, and an inner declaration hides an outer one. The syntax here
keeps only what scoping depends on: references, blocks, closures and the order of
declarations. References carry a mark (what some tool recorded on them), and
expressions carry a flag that says whether the tool is done with them.

Each block has two tables of names: the one in force at a given point, and the one
it ends with. Resolving a name against the first is lexical scoping; resolving it
against the second is what a lookup finds once the whole block was processed.
-/

namespace Lexical

open List

/-! ## Blocks around a point -/

/-- A block around a point: the names declared before the point, the names of the
    whole block, and the number of closures around it. Newer entries hide older
    ones. -/
structure Frame (ν δ : Type) where
  now : List (ν × δ)
  fin : List (ν × δ)
  level : Nat

/-- The blocks around a point, innermost first. -/
abbrev Chain (ν δ : Type) := List (Frame ν δ)

/-- The closures around a point. -/
def Chain.level {ν δ : Type} : Chain ν δ → Nat
  | [] => 0
  | f :: _ => f.level

/-- Which of a block's two tables to resolve against. -/
inductive Stage where
  | now | fin

/-- A block's table. -/
def Frame.names {ν δ : Type} (f : Frame ν δ) : Stage → List (ν × δ)
  | .now => f.now
  | .fin => f.fin

/-- The declaration a name denotes, with the closure level of its block. -/
def resolve {ν δ : Type} [BEq ν] (stage : Stage) : Chain ν δ → ν → Option (Nat × δ)
  | [], _ => none
  | f :: chain, name =>
      match (f.names stage).lookup name with
      | some d => some (f.level, d)
      | none => resolve stage chain name

/-! ## Skeletons -/

mutual

/-- What scoping sees of an expression or a statement. -/
inductive Skel (ν δ μ κ : Type) where
  /-- A read of a name. -/
  | use (name : ν) (mark : μ)
  /-- A write to a name. -/
  | assign (name : ν) (mark : μ)
  | node (done : Bool) (parts : List (Skel ν δ μ κ))
  /-- A call; `direct` calls do not evaluate their callee. -/
  | call (done direct : Bool) (callee : Skel ν δ μ κ) (args : List (Skel ν δ μ κ))
  /-- A nested block, with the names bound at its start. -/
  | block (params : List (ν × δ)) (body : List (Item ν δ μ κ))
  /-- A closure: a nested block, with the names it was found to capture. -/
  | closure (done : Bool) (captured : κ) (params : List (ν × δ)) (body : List (Item ν δ μ κ))

/-- A statement of a block and the declaration it adds when it is over. -/
inductive Item (ν δ μ κ : Type) where
  | mk (part : Skel ν δ μ κ) (decl : Option (ν × δ))

end

variable {ν δ μ κ : Type}

/-- The part of a statement that is looked at. -/
def Item.part : Item ν δ μ κ → Skel ν δ μ κ
  | .mk part _ => part

/-- What a statement declares. -/
def Item.decl : Item ν δ μ κ → Option (ν × δ)
  | .mk _ decl => decl

/-- A table after a statement. -/
def extend (now : List (ν × δ)) (decl : Option (ν × δ)) : List (ν × δ) :=
  match decl with
  | some d => d :: now
  | none => now

/-- The table a block ends with. -/
def declared (now : List (ν × δ)) : List (Item ν δ μ κ) → List (ν × δ)
  | [] => now
  | .mk _ decl :: rest => declared (extend now decl) rest

theorem declared_cons (now : List (ν × δ)) (item : Item ν δ μ κ) (rest : List (Item ν δ μ κ)) :
    declared now (item :: rest) = declared (extend now item.decl) rest := by
  cases item
  rfl

mutual

/-- All parts of a skeleton, itself included, each with the blocks around it. -/
def subs (chain : Chain ν δ) : Skel ν δ μ κ → List (Chain ν δ × Skel ν δ μ κ)
  | .use name mark => [(chain, .use name mark)]
  | .assign name mark => [(chain, .assign name mark)]
  | .node done parts => (chain, .node done parts) :: subsList chain parts
  | .call done direct callee args =>
      (chain, .call done direct callee args) :: (subs chain callee ++ subsList chain args)
  | .block params body =>
      (chain, .block params body) ::
        subsItems chain (declared params body) chain.level params body
  | .closure done captured params body =>
      (chain, .closure done captured params body) ::
        subsItems chain (declared params body) (chain.level + 1) params body

/-- All parts of some skeletons in the same place. -/
def subsList (chain : Chain ν δ) : List (Skel ν δ μ κ) → List (Chain ν δ × Skel ν δ μ κ)
  | [] => []
  | s :: ss => subs chain s ++ subsList chain ss

/-- All parts of the statements of a block whose final table is `fin`. -/
def subsItems (chain : Chain ν δ) (fin : List (ν × δ)) (level : Nat) (now : List (ν × δ)) :
    List (Item ν δ μ κ) → List (Chain ν δ × Skel ν δ μ κ)
  | [] => []
  | .mk part decl :: rest =>
      subs ({ now := now, fin := fin, level := level } :: chain) part ++
        subsItems chain fin level (extend now decl) rest

end

theorem subsItems_cons (chain : Chain ν δ) (fin : List (ν × δ)) (level : Nat) (now : List (ν × δ))
    (item : Item ν δ μ κ) (rest : List (Item ν δ μ κ)) :
    subsItems chain fin level now (item :: rest) =
      subs ({ now := now, fin := fin, level := level } :: chain) item.part ++
        subsItems chain fin level (extend now item.decl) rest := by
  cases item
  rfl

/-! ## Properties of all parts -/

/-- `R` holds of every part of a skeleton, in its place. -/
def Everywhere (R : Chain ν δ → Skel ν δ μ κ → Prop) (chain : Chain ν δ) (s : Skel ν δ μ κ) :
    Prop :=
  ∀ x ∈ subs chain s, R x.1 x.2

/-- `R` holds of every part of the statements of a block. -/
def EverywhereItems (R : Chain ν δ → Skel ν δ μ κ → Prop) (chain : Chain ν δ)
    (fin : List (ν × δ)) (level : Nat) (now : List (ν × δ)) (items : List (Item ν δ μ κ)) : Prop :=
  ∀ x ∈ subsItems chain fin level now items, R x.1 x.2

instance (R : Chain ν δ → Skel ν δ μ κ → Prop) [∀ c s, Decidable (R c s)] (chain : Chain ν δ)
    (s : Skel ν δ μ κ) : Decidable (Everywhere R chain s) :=
  inferInstanceAs (Decidable (∀ x ∈ subs chain s, R x.1 x.2))

section Everywhere

variable {R S : Chain ν δ → Skel ν δ μ κ → Prop} {chain : Chain ν δ}

variable {parts : List (Skel ν δ μ κ)}

attribute [local simp] Everywhere EverywhereItems subs subsList subsItems in
theorem mem_subsList {x : Chain ν δ × Skel ν δ μ κ} :
    x ∈ subsList chain parts ↔ ∃ p ∈ parts, x ∈ subs chain p := by
  induction parts with
  | nil => simp [subsList]
  | cons p ps ih => simp [subsList, ih]

@[simp] theorem everywhere_use {name : ν} {mark : μ} :
    Everywhere R chain (.use name mark) ↔ R chain (.use name mark) := by
  simp [Everywhere, subs]

@[simp] theorem everywhere_assign {name : ν} {mark : μ} :
    Everywhere R chain (.assign name mark) ↔ R chain (.assign name mark) := by
  simp [Everywhere, subs]

@[simp] theorem everywhere_node {done : Bool} :
    Everywhere R chain (.node done parts) ↔
      R chain (.node done parts) ∧ ∀ p ∈ parts, Everywhere R chain p := by
  simp only [Everywhere, subs, mem_cons, forall_eq_or_imp, mem_subsList]
  constructor
  · rintro ⟨here, below⟩
    exact ⟨here, fun p hp x hx => below x ⟨p, hp, hx⟩⟩
  · rintro ⟨here, below⟩
    exact ⟨here, fun x ⟨p, hp, hx⟩ => below p hp x hx⟩

@[simp] theorem everywhere_call {done direct : Bool} {callee : Skel ν δ μ κ}
    {args : List (Skel ν δ μ κ)} :
    Everywhere R chain (.call done direct callee args) ↔
      R chain (.call done direct callee args) ∧ Everywhere R chain callee ∧
        ∀ p ∈ args, Everywhere R chain p := by
  simp only [Everywhere, subs, mem_cons, forall_eq_or_imp, mem_append, mem_subsList]
  constructor
  · rintro ⟨here, below⟩
    exact ⟨here, fun x hx => below x (Or.inl hx), fun p hp x hx => below x (Or.inr ⟨p, hp, hx⟩)⟩
  · rintro ⟨here, callee, args⟩
    refine ⟨here, fun x hx => ?_⟩
    rcases hx with hx | ⟨p, hp, hx⟩
    · exact callee x hx
    · exact args p hp x hx

variable {body : List (Item ν δ μ κ)} {params : List (ν × δ)}

@[simp] theorem everywhere_block :
    Everywhere R chain (.block params body) ↔
      R chain (.block params body) ∧
        EverywhereItems R chain (declared params body) chain.level params body := by
  simp [Everywhere, EverywhereItems, subs]

@[simp] theorem everywhere_closure {done : Bool} {captured : κ} :
    Everywhere R chain (.closure done captured params body) ↔
      R chain (.closure done captured params body) ∧
        EverywhereItems R chain (declared params body) (chain.level + 1) params body := by
  simp [Everywhere, EverywhereItems, subs]

variable {now fin : List (ν × δ)}

@[simp] theorem everywhereItems_nil {level : Nat} :
    EverywhereItems R chain fin level now [] := by
  simp [EverywhereItems, subsItems]

@[simp] theorem everywhereItems_cons {level : Nat} {item : Item ν δ μ κ}
    {rest : List (Item ν δ μ κ)} :
    EverywhereItems R chain fin level now (item :: rest) ↔
      Everywhere R ({ now := now, fin := fin, level := level } :: chain) item.part ∧
        EverywhereItems R chain fin level (extend now item.decl) rest := by
  obtain ⟨part, decl⟩ := item
  simp only [EverywhereItems, Everywhere, subsItems, mem_append, Item.part, Item.decl]
  constructor
  · intro h
    exact ⟨fun x hx => h x (Or.inl hx), fun x hx => h x (Or.inr hx)⟩
  · rintro ⟨here, later⟩ x (hx | hx)
    · exact here x hx
    · exact later x hx

mutual

theorem subs_trans (chain : Chain ν δ) (s : Skel ν δ μ κ) {x y : Chain ν δ × Skel ν δ μ κ}
    (hx : x ∈ subs chain s) (hy : y ∈ subs x.1 x.2) : y ∈ subs chain s := by
  cases s with
  | use name mark =>
    obtain rfl : x = (chain, .use name mark) := by simpa [subs] using hx
    exact hy
  | assign name mark =>
    obtain rfl : x = (chain, .assign name mark) := by simpa [subs] using hx
    exact hy
  | node done parts =>
    rcases mem_cons.mp hx with rfl | hx
    · exact hy
    · exact mem_cons_of_mem _ (subsList_trans chain parts hx hy)
  | call done direct callee args =>
    rcases mem_cons.mp hx with rfl | hx
    · exact hy
    · rcases mem_append.mp hx with hx | hx
      · exact mem_cons_of_mem _ (mem_append_left _ (subs_trans chain callee hx hy))
      · exact mem_cons_of_mem _ (mem_append_right _ (subsList_trans chain args hx hy))
  | block params body | closure done captured params body =>
    rcases mem_cons.mp hx with rfl | hx
    · exact hy
    · exact mem_cons_of_mem _ (subsItems_trans chain _ _ _ body hx hy)

theorem subsList_trans (chain : Chain ν δ) (parts : List (Skel ν δ μ κ))
    {x y : Chain ν δ × Skel ν δ μ κ} (hx : x ∈ subsList chain parts) (hy : y ∈ subs x.1 x.2) :
    y ∈ subsList chain parts := by
  cases parts with
  | nil => simp [subsList] at hx
  | cons p ps =>
    rcases mem_append.mp hx with hx | hx
    · exact mem_append_left _ (subs_trans chain p hx hy)
    · exact mem_append_right _ (subsList_trans chain ps hx hy)

theorem subsItems_trans (chain : Chain ν δ) (fin : List (ν × δ)) (level : Nat)
    (now : List (ν × δ)) (items : List (Item ν δ μ κ)) {x y : Chain ν δ × Skel ν δ μ κ}
    (hx : x ∈ subsItems chain fin level now items) (hy : y ∈ subs x.1 x.2) :
    y ∈ subsItems chain fin level now items := by
  match items with
  | [] => simp [subsItems] at hx
  | .mk part decl :: rest =>
    rcases mem_append.mp hx with hx | hx
    · exact mem_append_left _ (subs_trans _ part hx hy)
    · exact mem_append_right _ (subsItems_trans chain fin level _ rest hx hy)

end

theorem Everywhere.part {s : Skel ν δ μ κ} (h : Everywhere R chain s)
    {x : Chain ν δ × Skel ν δ μ κ} (mem : x ∈ subs chain s) : Everywhere R x.1 x.2 :=
  fun y hy => h y (subs_trans chain s mem hy)

theorem Everywhere.mono {s : Skel ν δ μ κ} (h : Everywhere R chain s)
    (imp : ∀ c t, R c t → S c t) : Everywhere S chain s :=
  fun x hx => imp x.1 x.2 (h x hx)

theorem EverywhereItems.mono {level : Nat} {items : List (Item ν δ μ κ)}
    (h : EverywhereItems R chain fin level now items) (imp : ∀ c t, R c t → S c t) :
    EverywhereItems S chain fin level now items :=
  fun x hx => imp x.1 x.2 (h x hx)

end Everywhere

/-! ## Erasing what a tool recorded -/

mutual

/-- The skeleton without marks and flags. -/
def Skel.erase : Skel ν δ μ κ → Skel ν δ Unit Unit
  | .use name _ => .use name ()
  | .assign name _ => .assign name ()
  | .node _ parts => .node false (eraseList parts)
  | .call _ _ callee args => .call false false callee.erase (eraseList args)
  | .block params body => .block params (eraseItems body)
  | .closure _ _ params body => .closure false () params (eraseItems body)

/-- Some skeletons without marks and flags. -/
def eraseList : List (Skel ν δ μ κ) → List (Skel ν δ Unit Unit)
  | [] => []
  | s :: ss => s.erase :: eraseList ss

/-- Some statements without marks and flags. -/
def eraseItems : List (Item ν δ μ κ) → List (Item ν δ Unit Unit)
  | [] => []
  | .mk part decl :: rest => .mk part.erase decl :: eraseItems rest

end

theorem eraseList_eq_map (parts : List (Skel ν δ μ κ)) : eraseList parts = parts.map Skel.erase := by
  induction parts with
  | nil => rfl
  | cons p ps ih => simp [eraseList, ih]

theorem eraseItems_cons (item : Item ν δ μ κ) (rest : List (Item ν δ μ κ)) :
    eraseItems (item :: rest) = .mk item.part.erase item.decl :: eraseItems rest := by
  cases item
  rfl

@[simp] theorem declared_eraseItems (now : List (ν × δ)) (items : List (Item ν δ μ κ)) :
    declared now (eraseItems items) = declared now items := by
  induction items generalizing now with
  | nil => rfl
  | cons item rest ih =>
    obtain ⟨part, decl⟩ := item
    simp [eraseItems, declared, ih]

/-- Erase a part and keep its place. -/
def erasePlace (x : Chain ν δ × Skel ν δ μ κ) : Chain ν δ × Skel ν δ Unit Unit := (x.1, x.2.erase)

mutual

theorem subs_erase (chain : Chain ν δ) (s : Skel ν δ μ κ) :
    subs chain s.erase = (subs chain s).map erasePlace := by
  cases s with
  | use name mark => rfl
  | assign name mark => rfl
  | node done parts =>
    simp [Skel.erase, subs, erasePlace, subsList_erase chain parts]
  | call done direct callee args =>
    simp [Skel.erase, subs, erasePlace, subsList_erase chain args, subs_erase chain callee]
  | block | closure => simp [Skel.erase, subs, erasePlace, subsItems_erase chain]

theorem subsList_erase (chain : Chain ν δ) (parts : List (Skel ν δ μ κ)) :
    subsList chain (eraseList parts) = (subsList chain parts).map erasePlace := by
  cases parts with
  | nil => rfl
  | cons p ps => simp [eraseList, subsList, subs_erase chain p, subsList_erase chain ps]

theorem subsItems_erase (chain : Chain ν δ) (fin : List (ν × δ)) (level : Nat)
    (now : List (ν × δ)) (items : List (Item ν δ μ κ)) :
    subsItems chain fin level now (eraseItems items) =
      (subsItems chain fin level now items).map erasePlace := by
  match items with
  | [] => rfl
  | .mk part decl :: rest =>
    simp [eraseItems, subsItems, subs_erase _ part, subsItems_erase chain fin level _ rest]

end

theorem everywhere_erase {R : Chain ν δ → Skel ν δ Unit Unit → Prop} {chain : Chain ν δ}
    {s : Skel ν δ μ κ} :
    Everywhere R chain s.erase ↔ Everywhere (fun c t => R c t.erase) chain s := by
  simp only [Everywhere, subs_erase, forall_mem_map]
  exact Iff.rfl

/-! ## What closures refer to -/

section References

variable [BEq ν]

/-- A read of a declared name: the closure level of its block, the name and its
    declaration. -/
def readOf (x : Chain ν δ × Skel ν δ μ κ) : Option (Nat × ν × δ) :=
  match x.2 with
  | .use name _ => (resolve .now x.1 name).map fun r => (r.1, name, r.2)
  | _ => none

/-- A write to a declared name. -/
def writeOf (x : Chain ν δ × Skel ν δ μ κ) : Option (Nat × ν × δ) :=
  match x.2 with
  | .assign name _ => (resolve .now x.1 name).map fun r => (r.1, name, r.2)
  | _ => none

/-- The body of a closure that stands in `chain`, with its parts in their places. -/
def closureParts (chain : Chain ν δ) (params : List (ν × δ)) (body : List (Item ν δ μ κ)) :
    List (Chain ν δ × Skel ν δ μ κ) :=
  subsItems chain (declared params body) (chain.level + 1) params body

/-- The names that a closure in `chain` reads, at any depth, and that are declared
    outside it. -/
def outsideReads (chain : Chain ν δ) (params : List (ν × δ)) (body : List (Item ν δ μ κ)) :
    List (Nat × ν × δ) :=
  ((closureParts chain params body).filterMap readOf).filter fun r => r.1 ≤ chain.level

/-- The names that a closure in `chain` assigns, at any depth, and that are declared
    outside it. -/
def outsideWrites (chain : Chain ν δ) (params : List (ν × δ)) (body : List (Item ν δ μ κ)) :
    List (Nat × ν × δ) :=
  ((closureParts chain params body).filterMap writeOf).filter fun r => r.1 ≤ chain.level

theorem readOf_erasePlace (x : Chain ν δ × Skel ν δ μ κ) : readOf (erasePlace x) = readOf x := by
  obtain ⟨c, s⟩ := x
  cases s <;> rfl

theorem writeOf_erasePlace (x : Chain ν δ × Skel ν δ μ κ) : writeOf (erasePlace x) = writeOf x := by
  obtain ⟨c, s⟩ := x
  cases s <;> rfl

@[simp] theorem outsideReads_eraseItems (chain : Chain ν δ) (params : List (ν × δ))
    (body : List (Item ν δ μ κ)) :
    outsideReads chain params (eraseItems body) = outsideReads chain params body := by
  simp only [outsideReads, closureParts, declared_eraseItems, subsItems_erase, filterMap_map]
  congr 2
  funext x
  exact readOf_erasePlace x

@[simp] theorem outsideWrites_eraseItems (chain : Chain ν δ) (params : List (ν × δ))
    (body : List (Item ν δ μ κ)) :
    outsideWrites chain params (eraseItems body) = outsideWrites chain params body := by
  simp only [outsideWrites, closureParts, declared_eraseItems, subsItems_erase, filterMap_map]
  congr 2
  funext x
  exact writeOf_erasePlace x

end References

/-! ## Parts inside and outside closures -/

mutual

/-- A part stands at the closure level it is looked at from, or in a closure that
    does. -/
theorem level_or_closure (chain : Chain ν δ) (s : Skel ν δ μ κ) (x : Chain ν δ × Skel ν δ μ κ)
    (h : x ∈ subs chain s) :
    x.1.level = chain.level ∨
      ∃ c done captured params body,
        (c, Skel.closure done captured params body) ∈ subs chain s ∧ c.level = chain.level ∧
          x ∈ closureParts c params body := by
  cases s with
  | use name mark =>
    obtain rfl : x = (chain, .use name mark) := by simpa [subs] using h
    exact Or.inl rfl
  | assign name mark =>
    obtain rfl : x = (chain, .assign name mark) := by simpa [subs] using h
    exact Or.inl rfl
  | node done parts =>
    rcases mem_cons.mp h with rfl | h
    · exact Or.inl rfl
    · rcases level_or_closureList chain parts x h with here | ⟨c, d, k, ps, b, mem, rest⟩
      · exact Or.inl here
      · exact Or.inr ⟨c, d, k, ps, b, mem_cons_of_mem _ mem, rest⟩
  | call done direct callee args =>
    rcases mem_cons.mp h with rfl | h
    · exact Or.inl rfl
    · rcases mem_append.mp h with h | h
      · rcases level_or_closure chain callee x h with here | ⟨c, d, k, ps, b, mem, rest⟩
        · exact Or.inl here
        · exact Or.inr ⟨c, d, k, ps, b,
            mem_cons_of_mem _ (mem_append_left _ mem), rest⟩
      · rcases level_or_closureList chain args x h with here | ⟨c, d, k, ps, b, mem, rest⟩
        · exact Or.inl here
        · exact Or.inr ⟨c, d, k, ps, b,
            mem_cons_of_mem _ (mem_append_right _ mem), rest⟩
  | block params body =>
    rcases mem_cons.mp h with rfl | h
    · exact Or.inl rfl
    · rcases level_or_closureItems chain _ chain.level params body x h with
        here | ⟨c, d, k, ps, b, mem, rest⟩
      · exact Or.inl here
      · exact Or.inr ⟨c, d, k, ps, b, mem_cons_of_mem _ mem, rest⟩
  | closure done captured params body =>
    rcases mem_cons.mp h with rfl | h
    · exact Or.inl rfl
    · exact Or.inr ⟨chain, done, captured, params, body, mem_cons_self, rfl, h⟩

theorem level_or_closureList (chain : Chain ν δ) (parts : List (Skel ν δ μ κ))
    (x : Chain ν δ × Skel ν δ μ κ) (h : x ∈ subsList chain parts) :
    x.1.level = chain.level ∨
      ∃ c done captured params body,
        (c, Skel.closure done captured params body) ∈ subsList chain parts ∧
          c.level = chain.level ∧ x ∈ closureParts c params body := by
  cases parts with
  | nil => simp [subsList] at h
  | cons p ps =>
    rcases mem_append.mp h with h | h
    · rcases level_or_closure chain p x h with here | ⟨c, d, k, qs, b, mem, rest⟩
      · exact Or.inl here
      · exact Or.inr ⟨c, d, k, qs, b, mem_append_left _ mem, rest⟩
    · rcases level_or_closureList chain ps x h with here | ⟨c, d, k, qs, b, mem, rest⟩
      · exact Or.inl here
      · exact Or.inr ⟨c, d, k, qs, b, mem_append_right _ mem, rest⟩

theorem level_or_closureItems (chain : Chain ν δ) (fin : List (ν × δ)) (level : Nat)
    (now : List (ν × δ)) (items : List (Item ν δ μ κ)) (x : Chain ν δ × Skel ν δ μ κ)
    (h : x ∈ subsItems chain fin level now items) :
    x.1.level = level ∨
      ∃ c done captured params body,
        (c, Skel.closure done captured params body) ∈ subsItems chain fin level now items ∧
          c.level = level ∧ x ∈ closureParts c params body := by
  match items with
  | [] => simp [subsItems] at h
  | .mk part decl :: rest =>
    rcases mem_append.mp h with h | h
    · rcases level_or_closure _ part x h with here | ⟨c, d, k, qs, b, mem, rest⟩
      · exact Or.inl here
      · exact Or.inr ⟨c, d, k, qs, b, mem_append_left _ mem, rest⟩
    · rcases level_or_closureItems chain fin level _ rest x h with
        here | ⟨c, d, k, qs, b, mem, rest⟩
      · exact Or.inl here
      · exact Or.inr ⟨c, d, k, qs, b, mem_append_right _ mem, rest⟩

end

/-! ## Names declared around a closure -/

mutual

theorem subs_inner (chain : Chain ν δ) (s : Skel ν δ μ κ) (x : Chain ν δ × Skel ν δ μ κ)
    (h : x ∈ subs chain s) :
    ∃ inner, x.1 = inner ++ chain ∧ ∀ f ∈ inner, chain.level ≤ f.level := by
  cases s with
  | use name mark =>
    obtain rfl : x = (chain, .use name mark) := by simpa [subs] using h
    exact ⟨[], rfl, by simp⟩
  | assign name mark =>
    obtain rfl : x = (chain, .assign name mark) := by simpa [subs] using h
    exact ⟨[], rfl, by simp⟩
  | node done parts =>
    rcases mem_cons.mp h with rfl | h
    · exact ⟨[], rfl, by simp⟩
    · exact subsList_inner chain parts x h
  | call done direct callee args =>
    rcases mem_cons.mp h with rfl | h
    · exact ⟨[], rfl, by simp⟩
    · rcases mem_append.mp h with h | h
      · exact subs_inner chain callee x h
      · exact subsList_inner chain args x h
  | block params body =>
    rcases mem_cons.mp h with rfl | h
    · exact ⟨[], rfl, by simp⟩
    · obtain ⟨f, inner, eq, levels⟩ := subsItems_inner chain _ chain.level params body x h
      exact ⟨f :: inner, eq, levels⟩
  | closure done captured params body =>
    rcases mem_cons.mp h with rfl | h
    · exact ⟨[], rfl, by simp⟩
    · obtain ⟨f, inner, eq, levels⟩ := subsItems_inner chain _ (chain.level + 1) params body x h
      exact ⟨f :: inner, eq, fun g hg => Nat.le_of_succ_le (levels g hg)⟩

theorem subsList_inner (chain : Chain ν δ) (parts : List (Skel ν δ μ κ))
    (x : Chain ν δ × Skel ν δ μ κ) (h : x ∈ subsList chain parts) :
    ∃ inner, x.1 = inner ++ chain ∧ ∀ f ∈ inner, chain.level ≤ f.level := by
  cases parts with
  | nil => simp [subsList] at h
  | cons p ps =>
    rcases mem_append.mp h with h | h
    · exact subs_inner chain p x h
    · exact subsList_inner chain ps x h

theorem subsItems_inner (chain : Chain ν δ) (fin : List (ν × δ)) (level : Nat)
    (now : List (ν × δ)) (items : List (Item ν δ μ κ)) (x : Chain ν δ × Skel ν δ μ κ)
    (h : x ∈ subsItems chain fin level now items) :
    ∃ f inner, x.1 = f :: inner ++ chain ∧ ∀ g ∈ f :: inner, level ≤ g.level := by
  match items with
  | [] => simp [subsItems] at h
  | .mk part decl :: rest =>
    rcases mem_append.mp h with h | h
    · obtain ⟨inner, eq, levels⟩ := subs_inner _ part x h
      have last : ∀ g ∈ inner ++ [{ now := now, fin := fin, level := level }], level ≤ g.level := by
        intro g hg
        rcases mem_append.mp hg with hg | hg
        · exact levels g hg
        · obtain rfl := mem_singleton.mp hg
          exact Nat.le_refl _
      cases inner with
      | nil => exact ⟨_, [], eq, last⟩
      | cons f inner =>
        exact ⟨f, inner ++ [{ now := now, fin := fin, level := level }], by simp [eq],
          by simpa using last⟩
    · exact subsItems_inner chain fin level _ rest x h

end

theorem subsItems_level {chain : Chain ν δ} {fin : List (ν × δ)} {level : Nat}
    {now : List (ν × δ)} {items : List (Item ν δ μ κ)} {x : Chain ν δ × Skel ν δ μ κ}
    (h : x ∈ subsItems chain fin level now items) : level ≤ x.1.level := by
  obtain ⟨f, inner, eq, levels⟩ := subsItems_inner chain fin level now items x h
  rw [eq]
  exact levels f mem_cons_self

theorem resolve_outer [BEq ν] {stage : Stage} {inner chain : Chain ν δ} {name : ν} {level : Nat}
    {d : δ} (found : resolve stage (inner ++ chain) name = some (level, d))
    (out : ∀ f ∈ inner, level < f.level) : resolve stage chain name = some (level, d) := by
  induction inner with
  | nil => exact found
  | cons f inner ih =>
    simp only [cons_append, resolve] at found
    cases here : (f.names stage).lookup name with
    | some e =>
      simp only [here, Option.some.injEq, Prod.mk.injEq] at found
      exact absurd found.1 (Nat.ne_of_gt (out f mem_cons_self))
    | none =>
      simp only [here] at found
      exact ih found fun g hg => out g (mem_cons_of_mem f hg)

theorem resolve_of_outsideRead [BEq ν] {chain : Chain ν δ} {params : List (ν × δ)}
    {body : List (Item ν δ μ κ)} {r : Nat × ν × δ} (h : r ∈ outsideReads chain params body) :
    resolve .now chain r.2.1 = some (r.1, r.2.2) := by
  simp only [outsideReads, mem_filter, mem_filterMap, decide_eq_true_eq] at h
  obtain ⟨⟨⟨c, s⟩, mem, read⟩, outside⟩ := h
  obtain ⟨f, inner, eq, levels⟩ := subsItems_inner chain _ _ params body _ mem
  subst eq
  cases s with
  | use name mark =>
    simp only [readOf, Option.map_eq_some_iff] at read
    obtain ⟨⟨level, d⟩, found, rfl⟩ := read
    exact resolve_outer found fun g hg => Nat.lt_of_le_of_lt outside (levels g hg)
  | _ => simp [readOf] at read

end Lexical
