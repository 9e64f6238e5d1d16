/-!
# Structured code

Code whose jumps go forward to the end of a block or back to its beginning, over any instructions. A
conditional jump may go either way. A run has events, and it goes through the code or stops in it.
-/

namespace Blocks

open List

variable {ι σ ε φ : Type}

/-- How a run ends: behind the code, or inside of it. -/
inductive Ending (σ φ : Type) where
  | done (s : σ)
  | stopped (f : φ)

/-- Instructions, code that a jump goes around, and code that is repeated. -/
inductive Code (ι : Type) where
  | op (i : ι)
  | branch (left right : List (Code ι))
  | loop (body : List (Code ι))

/-- Runs one after the other, at least one. -/
inductive Repeats (R : σ → List ε → Ending σ φ → Prop) : σ → List ε → Ending σ φ → Prop where
  | last {s : σ} {es : List ε} {out : Ending σ φ} (h : R s es out) : Repeats R s es out
  | again {s s' : σ} {es es' : List ε} {out : Ending σ φ} (h : R s es (.done s'))
      (rest : Repeats R s' es' out) : Repeats R s (es ++ es') out

section Runs

variable (step : ι → σ → List ε → Ending σ φ → Prop)

mutual

/-- The runs of code, given those of the instructions. -/
def runs : List (Code ι) → σ → List ε → Ending σ φ → Prop
  | [], s, es, out => es = [] ∧ out = .done s
  | c :: code, s, es, out =>
    (∃ es₁ s₁ es₂, runsOne c s es₁ (.done s₁) ∧ runs code s₁ es₂ out ∧ es = es₁ ++ es₂) ∨
      ∃ f, runsOne c s es (.stopped f) ∧ out = .stopped f

def runsOne : Code ι → σ → List ε → Ending σ φ → Prop
  | .op i, s, es, out => step i s es out
  | .branch left right, s, es, out => runs left s es out ∨ runs right s es out
  | .loop body, s, es, out => Repeats (fun s es out => runs body s es out) s es out

end

mutual

/-- All instructions of some code. -/
def instructions : List (Code ι) → List ι
  | [] => []
  | c :: code => instructionsOne c ++ instructions code

def instructionsOne : Code ι → List ι
  | .op i => [i]
  | .branch left right => instructions left ++ instructions right
  | .loop body => instructions body

end

/-- What holds of the events and the end of every run. -/
def wp (code : List (Code ι)) (s : σ) (Q : List ε → Ending σ φ → Prop) : Prop :=
  ∀ es out, runs step code s es out → Q es out

/-- What holds of the events and the end of some run. -/
def may (code : List (Code ι)) (s : σ) (Q : List ε → Ending σ φ → Prop) : Prop :=
  ∃ es out, runs step code s es out ∧ Q es out

/-- What must hold behind the first part of some code. -/
def after (code : List (Code ι)) (Q : List ε → Ending σ φ → Prop) (es : List ε) :
    Ending σ φ → Prop
  | .done s => wp step code s fun es' out => Q (es ++ es') out
  | .stopped f => Q es (.stopped f)

/-- What may hold behind the first part of some code. -/
def mayAfter (code : List (Code ι)) (Q : List ε → Ending σ φ → Prop) (es : List ε) :
    Ending σ φ → Prop
  | .done s => may step code s fun es' out => Q (es ++ es') out
  | .stopped f => Q es (.stopped f)

end Runs

theorem instructions_append (code code' : List (Code ι)) :
    instructions (code ++ code') = instructions code ++ instructions code' := by
  induction code with
  | nil => rfl
  | cons c code ih => rw [cons_append, instructions, ih, instructions, append_assoc]

variable {step : ι → σ → List ε → Ending σ φ → Prop}

variable {c : Code ι}

theorem runs_one {s : σ} {es : List ε} {out : Ending σ φ} :
    runs step [c] s es out ↔ runsOne step c s es out := by
  constructor
  · rintro (⟨es₁, s₁, es₂, h, ⟨rfl, rfl⟩, rfl⟩ | ⟨f, h, rfl⟩)
    · rwa [append_nil]
    · exact h
  · intro h
    cases out with
    | done s' => exact .inl ⟨es, s', [], h, ⟨rfl, rfl⟩, (append_nil es).symm⟩
    | stopped f => exact .inr ⟨f, h, rfl⟩

theorem runs_append {code code' : List (Code ι)} {s : σ} {es : List ε} {out : Ending σ φ} :
    runs step (code ++ code') s es out ↔
      (∃ es₁ s₁ es₂, runs step code s es₁ (.done s₁) ∧ runs step code' s₁ es₂ out ∧
        es = es₁ ++ es₂) ∨ ∃ f, runs step code s es (.stopped f) ∧ out = .stopped f := by
  induction code generalizing s es with
  | nil =>
    constructor
    · exact fun h => .inl ⟨[], s, es, ⟨rfl, rfl⟩, h, rfl⟩
    · rintro (⟨es₁, s₁, es₂, ⟨rfl, h⟩, h', rfl⟩ | ⟨f, ⟨-, h⟩, -⟩)
      · cases h
        exact h'
      · cases h
  | cons c code ih =>
    constructor
    · rintro (⟨es₁, s₁, es₂, hone, hrest, rfl⟩ | ⟨f, hone, rfl⟩)
      · rcases ih.mp hrest with ⟨es₃, s₃, es₄, hcode, hcode', rfl⟩ | ⟨f, hcode, rfl⟩
        · exact .inl ⟨es₁ ++ es₃, s₃, es₄, .inl ⟨es₁, s₁, es₃, hone, hcode, rfl⟩, hcode',
            (append_assoc ..).symm⟩
        · exact .inr ⟨f, .inl ⟨es₁, s₁, es₂, hone, hcode, rfl⟩, rfl⟩
      · exact .inr ⟨f, .inr ⟨f, hone, rfl⟩, rfl⟩
    · rintro (⟨es₁, s₁, es₂, hcode, hcode', rfl⟩ | ⟨f, hcode, rfl⟩)
      · rcases hcode with ⟨es₃, s₃, es₄, hone, hrest, rfl⟩ | ⟨f, -, h⟩
        · exact .inl ⟨es₃, s₃, es₄ ++ es₂, hone, ih.mpr (.inl ⟨es₄, s₁, es₂, hrest, hcode', rfl⟩),
            append_assoc ..⟩
        · cases h
      · rcases hcode with ⟨es₃, s₃, es₄, hone, hrest, rfl⟩ | ⟨f', hone, h⟩
        · exact .inl ⟨es₃, s₃, es₄, hone, ih.mpr (.inr ⟨f, hrest, rfl⟩), rfl⟩
        · cases h
          exact .inr ⟨f, hone, rfl⟩

/-! ## All runs -/

section All

variable {code code' : List (Code ι)} {s : σ} {Q Q' : List ε → Ending σ φ → Prop}

theorem wp.mono (h : wp step code s Q) (hQ : ∀ es out, Q es out → Q' es out) :
    wp step code s Q' := fun es out hrun => hQ es out (h es out hrun)

theorem wp_nil : wp step [] s Q ↔ Q [] (.done s) := by
  constructor
  · exact fun h => h [] _ ⟨rfl, rfl⟩
  · rintro h es out ⟨rfl, rfl⟩
    exact h

theorem wp_append :
    wp step (code ++ code') s Q ↔ wp step code s (after step code' Q) := by
  constructor
  · intro h es out hrun
    cases out with
    | done s' =>
      exact fun es' out hrun' => h _ _ (runs_append.mpr (.inl ⟨es, s', es', hrun, hrun', rfl⟩))
    | stopped f => exact h _ _ (runs_append.mpr (.inr ⟨f, hrun, rfl⟩))
  · intro h es out hrun
    rcases runs_append.mp hrun with ⟨es₁, s₁, es₂, hcode, hcode', rfl⟩ | ⟨f, hcode, rfl⟩
    · exact h _ _ hcode _ _ hcode'
    · exact h _ _ hcode

theorem wp_cons :
    wp step (c :: code) s Q ↔ wp step [c] s (after step code Q) :=
  @wp_append ι σ ε φ step [c] code s Q

theorem wp_op {i : ι} : wp step [.op i] s Q ↔ ∀ es out, step i s es out → Q es out := by
  simp only [wp, runs_one, runsOne]

variable {left right : List (Code ι)}

theorem wp_branch :
    wp step [.branch left right] s Q ↔ wp step left s Q ∧ wp step right s Q := by
  simp only [wp, runs_one, runsOne, or_imp, forall_and]

theorem wp_branch_cons :
    wp step (.branch left right :: code) s Q ↔
      wp step (left ++ code) s Q ∧ wp step (right ++ code) s Q := by
  rw [wp_cons, wp_branch, wp_append, wp_append]

/-- An invariant of states, a property of events, and one of the places where code stops. -/
def Keeps (P : σ → Prop) (E : ε → Prop) (F : φ → Prop) (es : List ε) (out : Ending σ φ) : Prop :=
  (∀ e ∈ es, E e) ∧ (∀ s, out = .done s → P s) ∧ ∀ f, out = .stopped f → F f

variable {P : σ → Prop} {E : ε → Prop} {F : φ → Prop}

theorem Keeps.append {es es' : List ε} {out : Ending σ φ} (h : ∀ e ∈ es, E e)
    (h' : Keeps P E F es' out) : Keeps P E F (es ++ es') out := by
  refine ⟨fun e he => ?_, h'.2⟩
  rcases mem_append.mp he with he | he
  · exact h e he
  · exact h'.1 e he

theorem wp_loop {body : List (Code ι)} (hbody : ∀ s, P s → wp step body s (Keeps P E F))
    (h : P s) : wp step [.loop body] s (Keeps P E F) := by
  intro es out hrun
  rw [runs_one, runsOne] at hrun
  induction hrun with
  | last hturn => exact hbody _ h _ _ hturn
  | again hturn _ ih =>
    obtain ⟨hevents, hinv, -⟩ := hbody _ h _ _ hturn
    exact .append hevents (ih (hinv _ rfl))

mutual

theorem wp_keeps : (code : List (Code ι)) → {s : σ} →
    (∀ i ∈ instructions code, ∀ s, P s → ∀ es out, step i s es out → Keeps P E F es out) → P s →
    wp step code s (Keeps P E F)
  | [], s, _, h => wp_nil.mpr ⟨fun e he => (not_mem_nil he).elim, fun s' hs => by
      cases hs
      exact h, fun f hf => by cases hf⟩
  | c :: code, s, hstep, h => by
    rw [wp_cons]
    have hone := wp_keepsOne c (fun i hi => hstep i (mem_append_left _ hi)) h
    refine hone.mono fun es out hkeeps => ?_
    rcases out with s' | f
    · have hrest := wp_keeps code (fun i hi => hstep i (mem_append_right _ hi))
        (hkeeps.2.1 s' rfl)
      exact hrest.mono fun es' out' => .append hkeeps.1
    · exact hkeeps

theorem wp_keepsOne : (c : Code ι) → {s : σ} →
    (∀ i ∈ instructionsOne c, ∀ s, P s → ∀ es out, step i s es out → Keeps P E F es out) → P s →
    wp step [c] s (Keeps P E F)
  | .op i, s, hstep, h => wp_op.mpr (hstep i (mem_singleton.mpr rfl) s h)
  | .branch left right, s, hstep, h => by
    rw [wp_branch]
    exact ⟨wp_keeps left (fun i hi => hstep i (mem_append_left _ hi)) h,
      wp_keeps right (fun i hi => hstep i (mem_append_right _ hi)) h⟩
  | .loop body, s, hstep, h => by
    exact wp_loop (fun s' h' => wp_keeps body hstep h') h

end

end All

/-! ## Some runs -/

section Some

variable {code code' : List (Code ι)} {s : σ} {Q Q' : List ε → Ending σ φ → Prop}

theorem may.mono (h : may step code s Q) (hQ : ∀ es out, Q es out → Q' es out) :
    may step code s Q' := by
  obtain ⟨es, out, hrun, h⟩ := h
  exact ⟨es, out, hrun, hQ es out h⟩

theorem may_nil : may step [] s Q ↔ Q [] (.done s) := by
  constructor
  · rintro ⟨es, out, ⟨rfl, rfl⟩, h⟩
    exact h
  · exact fun h => ⟨[], _, ⟨rfl, rfl⟩, h⟩

theorem may_append :
    may step (code ++ code') s Q ↔ may step code s (mayAfter step code' Q) := by
  constructor
  · rintro ⟨es, out, hrun, h⟩
    rcases runs_append.mp hrun with ⟨es₁, s₁, es₂, hcode, hcode', rfl⟩ | ⟨f, hcode, rfl⟩
    · exact ⟨es₁, _, hcode, es₂, out, hcode', h⟩
    · exact ⟨es, _, hcode, h⟩
  · rintro ⟨es, out, hrun, h⟩
    cases out with
    | done s' =>
      obtain ⟨es', out, hrun', h⟩ := h
      exact ⟨_, out, runs_append.mpr (.inl ⟨es, s', es', hrun, hrun', rfl⟩), h⟩
    | stopped f => exact ⟨es, _, runs_append.mpr (.inr ⟨f, hrun, rfl⟩), h⟩

theorem may_cons :
    may step (c :: code) s Q ↔ may step [c] s (mayAfter step code Q) :=
  @may_append ι σ ε φ step [c] code s Q

theorem may_op {i : ι} : may step [.op i] s Q ↔ ∃ es out, step i s es out ∧ Q es out := by
  simp only [may, runs_one, runsOne]

variable {left right : List (Code ι)}

theorem may_branch :
    may step [.branch left right] s Q ↔ may step left s Q ∨ may step right s Q := by
  simp only [may, runs_one, runsOne, or_and_right, exists_or]

theorem may_branch_cons :
    may step (.branch left right :: code) s Q ↔
      may step (left ++ code) s Q ∨ may step (right ++ code) s Q := by
  rw [may_cons, may_branch, may_append, may_append]

end Some

end Blocks
