import Kryndel.Checker.Typing

/-!
# What a typing rule visits

A rule that succeeds has checked every subexpression of its node; only the callee
of a call by name is never checked. `Rule.Covers` is the statement for a rule
program, proved for each rule along the structure of its program.

The table of builtin functions is a parameter, so that each of its rules checks its
arguments is an assumption about the table.
-/

namespace Kryndel

open List

namespace Rule

variable {α β : Type}

/-- `P` holds at the end of every run of a rule: of the subexpressions checked with
    success, of the resolution recorded on the node, and of the result. `has` is
    what the rule sees of the enclosing scopes. -/
def Always (has : String → Bool) (P : List Nat → Resolution → α → Prop) :
    Rule α → List Nat → Resolution → Prop
  | pure a, seen, ref => P seen ref a
  | child i _ next, seen, ref =>
      (∀ d, (next (.error d)).Always has P seen ref) ∧
        ∀ t, (next (.ok t)).Always has P (i :: seen) ref
  | getTypeParams next, seen, ref => ∀ ps, (next ps).Always has P seen ref
  | setTypeParams _ next, seen, ref => next.Always has P seen ref
  | annotate f next, seen, ref => next.Always has P seen (f ref)
  | view next, seen, ref => ∀ v, v.has = has → (next v).Always has P seen ref

variable {ref : Resolution} {seen : List Nat} {r : Rule α}

variable {Q P : List Nat → Resolution → α → Prop}

theorem Always.mono {has : String → Bool} (imp : ∀ seen ref a, P seen ref a → Q seen ref a)
    (h : r.Always has P seen ref) :
    r.Always has Q seen ref := by
  induction r generalizing seen ref with
  | pure a => exact imp _ _ a h
  | child i expected cont ih => exact ⟨fun d => ih _ (h.1 d), fun t => ih _ (h.2 t)⟩
  | getTypeParams cont ih => exact fun ps => ih ps (h ps)
  | setTypeParams ps cont ih => exact ih h
  | annotate f cont ih => exact ih h
  | view cont ih => exact fun v hv => ih v (h v hv)

theorem Always.and {has : String → Bool} (p : r.Always has P seen ref)
    (q : r.Always has Q seen ref) :
    r.Always has (fun seen ref a => P seen ref a ∧ Q seen ref a) seen ref := by
  induction r generalizing seen ref with
  | pure a => exact ⟨p, q⟩
  | child i expected cont ih => exact ⟨fun d => ih _ (p.1 d) (q.1 d), fun t => ih _ (p.2 t) (q.2 t)⟩
  | getTypeParams cont ih => exact fun ps => ih ps (p ps) (q ps)
  | setTypeParams ps cont ih => exact ih p q
  | annotate f cont ih => exact ih p q
  | view cont ih => exact fun v hv => ih v (p v hv) (q v hv)

theorem always_of_forall {has : String → Bool} (all : ∀ seen ref a, P seen ref a) (r : Rule α)
    (seen : List Nat) (ref : Resolution) :
    r.Always has P seen ref := by
  induction r generalizing seen ref with
  | pure a => exact all seen ref a
  | child i expected cont ih => exact ⟨fun d => ih _ seen ref, fun t => ih _ (i :: seen) ref⟩
  | getTypeParams cont ih => exact fun ps => ih ps seen ref
  | setTypeParams ps cont ih => exact ih seen ref
  | annotate f cont ih => exact ih seen (f ref)
  | view cont ih => exact fun v _ => ih v seen ref

theorem Always.bind {has : String → Bool} {Q : List Nat → Resolution → β → Prop} {k : α → Rule β}
    (next : ∀ seen ref a, P seen ref a → (k a).Always has Q seen ref)
    (h : r.Always has P seen ref) :
    (r.bind k).Always has Q seen ref := by
  induction r generalizing seen ref with
  | pure a => exact next _ _ a h
  | child i expected cont ih => exact ⟨fun d => ih _ (h.1 d), fun t => ih _ (h.2 t)⟩
  | getTypeParams cont ih => exact fun ps => ih ps (h ps)
  | setTypeParams ps cont ih => exact ih h
  | annotate f cont ih => exact ih h
  | view cont ih => exact fun v hv => ih v (h v hv)

/-- Started after the subexpressions of `start` were checked, the rule ends with the
    subexpressions its result calls for checked as well. -/
def Covers (has : String → Bool) (start : List Nat) (need : α → List Nat) (r : Rule α) : Prop :=
  ∀ seen ref, start ⊆ seen → r.Always has (fun after _ a => seen ⊆ after ∧ need a ⊆ after) seen ref

section Covers

variable {has : String → Bool} {start : List Nat} {need : α → List Nat}

theorem covers_pure {a : α} (h : need a ⊆ start) : (Pure.pure a : Rule α).Covers has start need :=
  fun _ _ sub => ⟨fun _ hi => hi, fun _ hi => sub (h hi)⟩

theorem covers_ite {c : Prop} [Decidable c] {r s : Rule α} (yes : r.Covers has start need)
    (no : s.Covers has start need) : (if c then r else s).Covers has start need := by
  split
  · exact yes
  · exact no

theorem covers_nothing (none : ∀ a, need a = []) : r.Covers has start need := by
  intro seen ref _
  induction r generalizing seen ref with
  | pure a => exact ⟨fun _ h => h, by simp [none]⟩
  | child i expected cont ih =>
    exact ⟨fun d => ih _ seen ref ‹_›, fun t => (ih _ (i :: seen) ref
      fun _ h => mem_cons_of_mem _ (‹start ⊆ seen› h)).mono
        fun _ _ _ h => ⟨fun _ hi => h.1 (mem_cons_of_mem _ hi), h.2⟩⟩
  | getTypeParams cont ih => exact fun ps => ih ps seen ref ‹_›
  | setTypeParams ps cont ih => exact ih seen ref ‹_›
  | annotate f cont ih => exact ih seen (f ref) ‹_›
  | view cont ih => exact fun v _ => ih v seen ref ‹_›

theorem covers_bind {need' : β → List Nat} {k : α → Rule β} (first : r.Covers has start need)
    (next : ∀ a, (k a).Covers has (start ++ need a) need') :
    (r >>= k).Covers has start need' := by
  intro seen ref sub
  refine Always.bind ?_ (first seen ref sub)
  rintro seen' ref' a ⟨kept, found⟩
  have after := next a seen' ref' (append_subset.mpr ⟨fun i hi => kept (sub hi), found⟩)
  exact after.mono fun _ _ _ h => ⟨fun i hi => h.1 (kept hi), h.2⟩

theorem Covers.weaken {need' : α → List Nat} {start' : List Nat} (h : r.Covers has start need)
    (more : start ⊆ start') (less : ∀ a, need' a ⊆ start' ++ need a) :
    r.Covers has start' need' := by
  intro seen ref sub
  refine (h seen ref fun i hi => sub (more hi)).mono ?_
  rintro seen' _ a ⟨kept, found⟩
  refine ⟨kept, fun i hi => ?_⟩
  rcases mem_append.mp (less a hi) with old | new
  · exact kept (sub old)
  · exact found new

/-- What a checked subexpression adds: itself, if the check succeeded. -/
def onSuccess (i : Nat) : Typed → List Nat
  | .ok _ => [i]
  | .error _ => []

theorem covers_check (i : Nat) (expected : Option Ty) :
    (check i expected).Covers has start (onSuccess i) :=
  fun _ _ _ => ⟨fun _ => ⟨fun _ hi => hi, by simp [onSuccess]⟩,
    fun _ => ⟨fun _ hi => mem_cons_of_mem _ hi, by simp [onSuccess]⟩⟩

theorem covers_scope_bind {k : ScopeView → Rule α}
    (next : ∀ v, v.has = has → (k v).Covers has start need) :
    (scope >>= k).Covers has start need :=
  fun seen ref sub v hv => next v hv seen ref sub

theorem covers_typeParams_bind {k : TypeParams → Rule α}
    (next : ∀ ps, (k ps).Covers has start need) : (typeParams >>= k).Covers has start need :=
  fun seen ref sub ps => next ps seen ref sub

theorem covers_put_bind {ps : TypeParams} {k : Unit → Rule α}
    (next : (k ()).Covers has start need) : (putTypeParams ps >>= k).Covers has start need :=
  fun seen ref sub => next seen ref sub

theorem covers_record_bind {f : Resolution → Resolution} {k : Unit → Rule α}
    (next : (k ()).Covers has start need) : (record f >>= k).Covers has start need :=
  fun seen ref sub => next seen (f ref) sub

end Covers

/-- The subexpressions of a successful result. -/
def whenOk {ε : Type} (need : List Nat) : Except ε α → List Nat
  | .ok _ => need
  | .error _ => []

@[simp] theorem whenOk_ok {ε : Type} {need : List Nat} {a : α} :
    whenOk need (.ok a : Except ε α) = need := rfl

@[simp] theorem whenOk_error {ε : Type} {need : List Nat} {d : ε} :
    whenOk need (.error d : Except ε α) = [] := rfl

variable {i : Nat}

@[simp] theorem onSuccess_ok {t : Ty} : onSuccess i (.ok t) = [i] := rfl

@[simp] theorem onSuccess_error {d : Diagnostic} : onSuccess i (.error d) = [] := rfl

theorem covers_checked {has : String → Bool} {start : List Nat} {need : Typed → List Nat}
    {expected : Option Ty} {next : Ty → Rule Typed} (failed : ∀ d, need (.error d) = [])
    (h : ∀ t, (next t).Covers has (start ++ [i]) need) :
    (checked i expected next).Covers has start need := by
  refine covers_bind (covers_check i expected) fun t => ?_
  cases t with
  | error d => exact covers_pure (by simp [failed])
  | ok t => exact h t

end Rule

open Rule

/-! ## Operators and collections -/

section Rules

variable {has : String → Bool}

theorem whenOk_subset {α ε : Type} (need : List Nat) (r : Except ε α) : whenOk need r ⊆ need := by
  cases r <;> simp

variable (tok : Token)

theorem unaryRule_covers (op : UnaryOp) :
    (unaryRule tok op).Covers has [] (whenOk [0]) :=
  covers_checked (fun _ => rfl) fun _ => covers_pure (whenOk_subset _ _)

theorem binaryRule_covers (env : TypeEnv) (tok : Token) (op : BinaryOp) (left right : Expr) :
    (binaryRule env tok op left right).Covers has [] (whenOk [0, 1]) := by
  refine covers_checked (fun _ => rfl) fun lt => ?_
  split
  · refine covers_checked (fun _ => rfl) fun rt => ?_
    split
    · exact covers_pure (by simp)
    · split
      all_goals exact covers_pure (by simp)
  · exact covers_checked (fun _ => rfl) fun rt => covers_pure (whenOk_subset _ _)

/-- The positions of `k` subexpressions from the `i`-th on. -/
def span (i k : Nat) : List Nat := List.range' i k

@[simp] theorem mem_span {i k j : Nat} : j ∈ span i k ↔ i ≤ j ∧ j < i + k := by
  simp [span, mem_range'_1]

theorem mapEntries_covers (n : Nat) (keys values : List Expr) (i : Nat) (kt vt : Option Ty)
    (start : List Nat) :
    (mapEntries tok n keys values i kt vt).Covers has start
      (whenOk (span i keys.length ++ span (n + i) values.length)) := by
  induction keys generalizing values i kt vt start with
  | nil =>
    cases values with
    | nil => exact covers_pure (by simp [span])
    | cons value values => exact covers_pure (by simp)
  | cons key keys ih =>
    cases values with
    | nil => exact covers_pure (by simp)
    | cons value values =>
      refine covers_bind (covers_check i kt) fun t => ?_
      cases t with
      | error d => exact covers_pure (by simp)
      | ok got =>
        refine covers_ite (covers_pure (by simp)) (covers_ite (covers_pure (by simp)) ?_)
        refine covers_bind (covers_check (n + i) vt) fun t => ?_
        cases t with
        | error d => exact covers_pure (by simp)
        | ok found =>
          refine covers_ite (covers_pure (by simp)) ?_
          refine (ih values (i + 1) _ _ _).weaken (List.Subset.refl _) fun r => ?_
          cases r with
          | error d => simp
          | ok ts =>
            intro j hj
            simp only [whenOk_ok, length_cons, mem_append, mem_span,
              onSuccess_ok, mem_singleton] at hj ⊢
            omega

theorem mapRule_covers (tok : Token) (keys values : List Expr) (expected : Option Ty) :
    (mapRule tok keys values expected).Covers has []
      (whenOk (span 0 (keys.length + values.length))) := by
  unfold mapRule
  split
  · rename_i empty
    simp only [Bool.and_eq_true, List.isEmpty_iff] at empty
    obtain ⟨rfl, rfl⟩ := empty
    split
    · exact covers_pure (by simp [span])
    · exact covers_pure (by simp)
  · refine covers_bind (mapEntries_covers tok _ keys values 0 _ _ _) fun r => ?_
    cases r with
    | error d => exact covers_pure (by simp)
    | ok ts =>
      refine covers_pure fun j hj => ?_
      simp only [whenOk_ok, mem_span, mem_append, nil_append] at hj ⊢
      omega

theorem setItems_covers (items : List Expr) (i : Nat) (et : Option Ty) (start : List Nat) :
    (setItems items i et).Covers has start (whenOk (span i items.length)) := by
  induction items generalizing i et start with
  | nil => exact covers_pure (by simp [span])
  | cons x rest ih =>
    refine covers_bind (covers_check i et) fun t => ?_
    cases t with
    | error d => exact covers_pure (by simp)
    | ok xt =>
      refine covers_ite (covers_pure (by simp)) ?_
      refine (ih (i + 1) _ _).weaken (List.Subset.refl _) fun r => ?_
      cases r with
      | error d => simp
      | ok et =>
        intro j hj
        simp only [whenOk_ok, length_cons, mem_span, onSuccess_ok, mem_append,
          mem_singleton] at hj ⊢
        omega

theorem setRule_covers (env : TypeEnv) (tok : Token) (items : List Expr) (expected : Option Ty) :
    (setRule env tok items expected).Covers has [] (whenOk (span 0 items.length)) := by
  unfold setRule
  split
  · rename_i empty
    obtain rfl := List.isEmpty_iff.mp empty
    split
    · exact covers_pure (by simp [span])
    · exact covers_pure (by simp)
  · refine covers_bind (setItems_covers items 0 _ _) fun r => ?_
    cases r with
    | error d => exact covers_pure (by simp)
    | ok et =>
      dsimp only
      split
      all_goals exact covers_pure (by simp)

theorem arrayItems_covers (items : List Expr) (i : Nat) (et : Option Ty) (d : Option Diagnostic)
    (start : List Nat) : (arrayItems items i et d).Covers has start (whenOk (span i items.length)) := by
  induction items generalizing i et d start with
  | nil => exact covers_pure (List.Subset.trans (whenOk_subset _ _) (by simp [span]))
  | cons x rest ih =>
    refine covers_bind (covers_check i et) fun t => ?_
    cases t with
    | error d => exact covers_pure (by simp)
    | ok xt =>
      have tail : ∀ et d, (arrayItems rest (i + 1) et d).Covers has (start ++ [i])
          (whenOk (span i (x :: rest).length)) := by
        intro et d
        refine (ih (i + 1) et d _).weaken (List.Subset.refl _) fun r => ?_
        cases r with
        | error d => simp
        | ok et =>
          intro j hj
          simp only [whenOk_ok, length_cons, mem_span, mem_append,
            mem_singleton] at hj ⊢
          omega
      cases et with
      | none => exact tail _ _
      | some e => exact tail _ _

theorem arrayRule_covers (items : List Expr) (expected : Option Ty) :
    (arrayRule tok items expected).Covers has [] (whenOk (span 0 items.length)) := by
  unfold arrayRule
  split
  · rename_i empty
    obtain rfl := List.isEmpty_iff.mp empty
    split
    · exact covers_pure (by simp [span])
    · exact covers_pure (by simp)
  · refine covers_bind (arrayItems_covers items 0 _ _ _) fun r => ?_
    cases r with
    | error d => exact covers_pure (by simp)
    | ok et => exact covers_pure (by simp)

theorem indexRule_covers (left : Expr) :
    (indexRule tok left).Covers has [] (whenOk [0, 1]) :=
  covers_checked (fun _ => rfl) fun _ => covers_checked (fun _ => rfl) fun _ =>
    covers_pure (whenOk_subset _ _)

/-! ## Structs and enums -/

theorem fieldRule_covers (env : TypeEnv) (tok : Token) (name : String) :
    (fieldRule env tok name).Covers has [] (whenOk [0]) := by
  refine covers_checked (fun _ => rfl) fun bt => ?_
  split
  · split
    · exact covers_pure (by simp)
    · split
      · exact covers_pure (by simp)
      · exact covers_scope_bind fun v _ => covers_ite (covers_pure (by simp))
          (covers_record_bind (covers_pure (by simp)))
  · exact covers_pure (by simp)

/-- The subexpressions of a loop that reports no error. -/
def whenNone (need : List Nat) : Option Diagnostic → List Nat
  | none => need
  | some _ => []

@[simp] theorem whenNone_none {need : List Nat} : whenNone need none = need := rfl

@[simp] theorem whenNone_some {need : List Nat} {d : Diagnostic} : whenNone need (some d) = [] := rfl

theorem structFields_covers (env : TypeEnv) (tok : Token) (decl : StructDecl) (instanceType : Ty)
    (names : List String) (values : List Expr) (i : Nat) (seen : List String)
    (d : Option Diagnostic) (start : List Nat) :
    (structFields env tok decl instanceType names values i seen d).Covers has start
      (whenNone (span i values.length)) := by
  induction values generalizing names i seen d start with
  | nil =>
    cases names with
    | nil => exact covers_pure (by cases d <;> simp [span])
    | cons name names => exact covers_pure (by simp)
  | cons value values ih =>
    cases names with
    | nil => exact covers_pure (by simp)
    | cons name names =>
      refine covers_ite (covers_pure (by simp)) ?_
      split
      · exact covers_pure (by simp)
      · split
        · exact covers_pure (by simp)
        · refine covers_scope_bind fun v _ => covers_bind (covers_check i _) fun t => ?_
          cases t with
          | error d => exact covers_pure (by simp)
          | ok vt =>
            refine (ih names (i + 1) _ _ _).weaken (List.Subset.refl _) fun r => ?_
            cases r with
            | some d => simp
            | none =>
              intro j hj
              simp only [whenNone_none, length_cons, mem_span, onSuccess_ok, mem_append,
                mem_singleton] at hj ⊢
              omega

theorem structRule_covers (env : TypeEnv) (tok : Token) (spec : TypeSpec) (fields : List String)
    (values : List Expr) :
    (structRule env tok spec fields values).Covers has [] (whenOk (span 0 values.length)) := by
  unfold structRule
  split
  · exact covers_pure (by simp)
  · refine covers_typeParams_bind fun ps => ?_
    split
    · exact covers_pure (by simp)
    · refine covers_scope_bind fun v _ => covers_ite (covers_pure (by simp)) ?_
      refine covers_record_bind (covers_ite (covers_pure (by simp)) ?_)
      refine covers_bind (structFields_covers env tok _ _ fields values 0 [] none _) fun d => ?_
      cases d with
      | some d => exact covers_pure (by simp)
      | none => exact covers_pure (by simp)

theorem propagateRule_covers : (propagateRule tok).Covers has [] (whenOk [0]) :=
  covers_scope_bind fun _ _ => covers_checked (fun _ => rfl) fun _ =>
    covers_pure (whenOk_subset _ _)

/-! ## Calls -/

/-- The subexpressions of an attempt that succeeds. -/
def whenSome (need : List Nat) : Option α → List Nat
  | some _ => need
  | none => []

@[simp] theorem whenSome_some {need : List Nat} {a : α} : whenSome need (some a) = need := rfl

@[simp] theorem whenSome_none {need : List Nat} : whenSome need (none : Option α) = [] := rfl

theorem whenSome_subset (need : List Nat) (r : Option α) : whenSome need r ⊆ need := by
  cases r <;> simp

variable {start : List Nat}

theorem unifyArgument_covers (env : TypeEnv) (i : Nat) (expected : Option Ty) (spec : TypeSpec)
    (inf : Inference) :
    (unifyArgument env i expected spec inf).Covers has start (whenSome [i + 1]) := by
  refine covers_put_bind (covers_bind (covers_check (i + 1) expected) fun t => ?_)
  cases t with
  | error d => exact covers_pure (by simp)
  | ok actual => exact covers_pure (List.Subset.trans (whenSome_subset _ _) (by simp))

theorem unifyInContext_covers (env : TypeEnv) (i : Nat) (spec : TypeSpec) (inf : Inference) :
    (unifyInContext env i spec inf).Covers has start (whenSome [i + 1]) := by
  unfold unifyInContext
  split
  · exact covers_pure (by simp)
  · exact unifyArgument_covers env i _ spec inf

/-- What holds of the arguments from the `i`-th to the `k`-th once they are matched:
    each was checked or put off. -/
def Handled (i k : Nat) (deferred : List Nat) (seen after : List Nat)
    (r : Option (Inference × List Nat)) : Prop :=
  seen ⊆ after ∧ ∀ inf later, r = some (inf, later) →
    deferred ⊆ later ∧ ∀ j ∈ span i k, j + 1 ∈ after ∨ j ∈ later

theorem handled_check {r : Rule (Option Inference)} {i : Nat} {deferred seen : List Nat}
    {ref : Resolution} (checks : r.Covers has [] (whenSome [i + 1])) :
    (r >>= fun inf => Pure.pure (inf.map (·, deferred))).Always has
      (fun after _ a => Handled i 1 deferred seen after a) seen ref := by
  refine Always.bind ?_ (checks seen ref (nil_subset _))
  rintro after _ inf ⟨kept, found⟩
  refine ⟨kept, fun inf' later eq => ?_⟩
  cases inf with
  | none => simp at eq
  | some inf =>
    obtain ⟨rfl, rfl⟩ := eq
    refine ⟨fun _ h => h, fun j hj => Or.inl ?_⟩
    obtain rfl : j = i := by simp only [mem_span] at hj; omega
    exact found mem_cons_self

theorem unifyArguments_handled (env : TypeEnv) (args : List (Expr × TypeSpec)) (i : Nat)
    (inf : Inference) (deferred seen : List Nat) (ref : Resolution) :
    (unifyArguments env args i inf deferred).Always has
      (fun after _ a => Handled i args.length deferred seen after a) seen ref := by
  induction args generalizing i inf deferred seen ref with
  | nil =>
    refine ⟨fun _ h => h, fun inf' later eq => ?_⟩
    obtain ⟨-, rfl⟩ := eq
    exact ⟨fun _ h => h, by simp [span]⟩
  | cons arg rest ih =>
    obtain ⟨arg, spec⟩ := arg
    intro v hv
    -- one argument is checked or put off
    refine Always.bind (P := fun after _ a => Handled i 1 deferred seen after a) ?_ ?_
    · rintro after ref' result ⟨kept, found⟩
      cases result with
      | none => exact ⟨kept, fun _ _ eq => by simp at eq⟩
      | some r =>
        obtain ⟨inf, middle⟩ := r
        obtain ⟨before, here⟩ := found inf middle rfl
        refine (ih (i + 1) inf middle after ref').mono ?_
        rintro last _ r ⟨more, rest⟩
        refine ⟨fun _ h => more (kept h), fun inf' later eq => ?_⟩
        obtain ⟨between, there⟩ := rest inf' later eq
        refine ⟨fun _ h => between (before h), fun j hj => ?_⟩
        simp only [mem_span, length_cons] at hj
        by_cases first : j = i
        · rcases here j (by simp [first]) with checked | later
          · exact Or.inl (more checked)
          · exact Or.inr (between later)
        · exact there j (by simp only [mem_span]; omega)
    · have inContext := @handled_check _ _ _ deferred seen ref
        (@unifyInContext_covers has [] env i spec inf)
      have atOnce := @handled_check _ _ _ deferred seen ref
        (@unifyArgument_covers has [] env i none spec inf)
      split
      · split
        · exact atOnce
        · split
          · exact inContext
          · split
            · exact atOnce
            · refine ⟨fun _ h => h, fun inf' later eq => ?_⟩
              simp only [Option.some.injEq, Prod.mk.injEq] at eq
              obtain ⟨-, rfl⟩ := eq
              refine ⟨fun _ h => mem_append_left _ h, fun j hj => Or.inr ?_⟩
              obtain rfl : j = i := by simp only [mem_span] at hj; omega
              simp
        · exact inContext
      · exact inContext

/-- The arguments that were not put off, as subexpressions. -/
def handled (i k : Nat) : Option (Inference × List Nat) → List Nat
  | some (_, later) => ((span i k).filter fun j => !later.contains j).map (· + 1)
  | none => []

theorem unifyArguments_covers (env : TypeEnv) (args : List (Expr × TypeSpec)) (i : Nat)
    (inf : Inference) (deferred start : List Nat) :
    (unifyArguments env args i inf deferred).Covers has start (handled i args.length) := by
  intro seen ref _
  refine (unifyArguments_handled env args i inf deferred seen ref).mono ?_
  rintro after _ r ⟨kept, found⟩
  refine ⟨kept, ?_⟩
  cases r with
  | none => simp [handled]
  | some r =>
    obtain ⟨inf, later⟩ := r
    simp only [handled, subset_def, mem_map, mem_filter]
    rintro _ ⟨j, ⟨mem, out⟩, rfl⟩
    rcases (found inf later rfl).2 j mem with checked | put
    · exact checked
    · simp [put] at out

theorem unifyDeferred_covers (env : TypeEnv) (specs : List TypeSpec) (later : List Nat)
    (inf : Inference) (start : List Nat) :
    (unifyDeferred env specs later inf).Covers has start (whenSome (later.map (· + 1))) := by
  induction later generalizing inf start with
  | nil => exact covers_pure (by simp)
  | cons i rest ih =>
    refine covers_bind (unifyInContext_covers env i _ inf) fun r => ?_
    cases r with
    | none => exact covers_pure (by simp)
    | some inf =>
      refine (ih inf _).weaken (List.Subset.refl _) fun r => ?_
      cases r with
      | none => simp
      | some inf => simp

/-- The arguments of a call, as subexpressions. -/
def arguments (args : List Expr) : List Nat := span 1 args.length

theorem inferCall_covers (env : TypeEnv) (args : List Expr) (f : Candidate)
    (expectedReturn receiver : Option Ty) (fits : args.length ≤ f.params.length) :
    (inferCall env args f expectedReturn receiver).Covers has start (whenSome (arguments args)) := by
  unfold inferCall
  dsimp only
  split
  · exact covers_pure (by simp)
  · refine covers_bind (unifyArguments_covers env _ 0 _ [] start) fun r => ?_
    cases r with
    | none => exact covers_pure (by simp)
    | some r =>
      obtain ⟨inf, later⟩ := r
      dsimp only
      split
      · exact covers_pure (by simp)
      · refine covers_bind (unifyDeferred_covers env _ later _ _) fun r => ?_
        cases r with
        | none => exact covers_pure (by simp)
        | some inf =>
          refine covers_pure (List.Subset.trans (whenSome_subset _ _) fun j hj => ?_)
          simp only [arguments, mem_span] at hj
          simp only [handled, length_zip, length_map, mem_append, mem_map,
            mem_filter, mem_span, whenSome_some]
          by_cases put : j - 1 ∈ later
          · exact Or.inr ⟨j - 1, put, by omega⟩
          · exact Or.inl (Or.inr ⟨j - 1, ⟨by omega, by simpa using put⟩, by omega⟩)

theorem matchFunctionCall_covers (env : TypeEnv) (args : List Expr) (f : Candidate)
    (expectedReturn receiver : Option Ty) :
    (matchFunctionCall env args f expectedReturn receiver).Covers has start
      (whenSome (arguments args)) := by
  unfold matchFunctionCall
  split
  · exact covers_pure (by simp)
  · rename_i fits
    simp only [Bool.or_eq_true, decide_eq_true_eq, not_or, Nat.not_lt] at fits
    refine covers_typeParams_bind fun previous => ?_
    refine covers_bind (inferCall_covers env args f _ _ fits.2) fun result => ?_
    refine covers_put_bind ?_
    cases result with
    | none => exact covers_pure (by simp)
    | some r =>
      refine covers_ite ?_ ?_
      · exact covers_record_bind (covers_pure (by simp))
      · exact covers_pure (by simp)

/-- The arguments of a call that some overload matches. -/
def whenMatched (need : List Nat) : Except Diagnostic (Option (Candidate × Ty)) → List Nat
  | .ok (some _) => need
  | _ => []

theorem selectOverload_covers (env : TypeEnv) (args : List Expr) (expected receiver : Option Ty)
    (ambiguous : Diagnostic) (candidates : List Candidate) (matched : Option (Candidate × Ty))
    (start : List Nat) (before : whenSome (arguments args) matched ⊆ start) :
    (selectOverload env args expected receiver ambiguous candidates matched).Covers has start
      (whenMatched (arguments args)) := by
  induction candidates generalizing matched start with
  | nil =>
    cases matched with
    | none => exact covers_pure (by simp [whenMatched])
    | some m => exact covers_pure before
  | cons f rest ih =>
    refine covers_bind (matchFunctionCall_covers env args f expected receiver) fun r => ?_
    cases r with
    | none => exact ih matched _ (fun _ h => mem_append_left _ (before h))
    | some t =>
      refine covers_ite (covers_pure (by simp [whenMatched])) ?_
      exact ih (some (f, t)) _ (fun _ h => mem_append_right _ h)

theorem checkArguments_covers (args : List (Expr × Ty)) (i : Nat) (start : List Nat) :
    (checkArguments args i).Covers has start (whenNone (span (i + 1) args.length)) := by
  induction args generalizing i start with
  | nil => exact covers_pure (by simp [span])
  | cons arg rest ih =>
    refine covers_bind (covers_check (i + 1) _) fun t => ?_
    cases t with
    | error d => exact covers_pure (by simp)
    | ok got =>
      refine covers_ite ?_ (covers_pure (by simp))
      refine (ih (i + 1) _).weaken (List.Subset.refl _) fun r => ?_
      cases r with
      | some d => simp
      | none =>
        intro j hj
        simp only [whenNone_none, length_cons, mem_span, onSuccess_ok, mem_append,
          mem_singleton] at hj ⊢
        omega

theorem valueCallRule_covers (tok : Token) (callee : Expr) (args : List Expr) :
    (valueCallRule tok callee args).Covers has [] (whenOk (span 0 (args.length + 1))) := by
  refine covers_checked (fun _ => rfl) fun calleeType => ?_
  split
  · rename_i params ret
    split
    · exact covers_pure (by simp)
    · rename_i same
      refine covers_bind (checkArguments_covers (args.zip params) 0 _) fun r => ?_
      cases r with
      | some d => exact covers_pure (by simp)
      | none =>
        refine covers_pure fun j hj => ?_
        simp only [whenOk_ok, mem_span, length_zip, nil_append, mem_append,
          mem_singleton, whenNone_none] at hj ⊢
        omega
  · exact covers_pure (by simp)

/-- Every builtin checks each of its arguments. -/
def BuiltinsCheckArguments (env : CheckEnv) : Prop :=
  ∀ name b, env.builtins name = some b → ∀ info callee args ref expected has,
    (b.check (.call info callee args ref) expected).Covers has [] (whenOk (arguments args))

theorem namedCallRule_covers {env : CheckEnv} (builtins : BuiltinsCheckArguments env)
    (info : ExprInfo) (callee : Expr) (args : List Expr) (ref : Resolution) (tok : Token)
    (name : String) (expected : Option Ty) :
    (namedCallRule env (.call info callee args ref) tok name args expected).Covers has []
      (whenOk (arguments args)) := by
  refine covers_scope_bind fun v _ => ?_
  split
  · rename_i b found
    refine covers_ite (covers_pure (by simp)) (covers_ite (covers_pure (by simp)) ?_)
    exact builtins name b found info callee args ref expected has
  · refine covers_ite (covers_pure (by simp)) ?_
    refine covers_bind (selectOverload_covers env.toTypeEnv args _ _ _ _ none [] (by simp))
      fun r => ?_
    match r with
    | .error d => exact covers_pure (by simp)
    | .ok none => exact covers_pure (by simp)
    | .ok (some (f, t)) => exact covers_record_bind (covers_pure (by simp [whenMatched]))

theorem methodRule_covers (env : TypeEnv) (tok : Token) (name : String) (args : List Expr)
    (expected : Option Ty) :
    (methodRule env tok name args expected).Covers has []
      (whenOk (span 0 (args.length + 1))) := by
  refine covers_checked (fun _ => rfl) fun rt => ?_
  refine covers_scope_bind fun v _ => covers_ite (covers_pure (by simp)) ?_
  refine covers_bind (selectOverload_covers env args _ _ _ _ none _ (by simp)) fun r => ?_
  match r with
  | .error d => exact covers_pure (by simp)
  | .ok none => exact covers_pure (by simp)
  | .ok (some (f, t)) =>
    refine covers_record_bind (covers_pure fun j hj => ?_)
    simp only [whenOk_ok, mem_span, nil_append, mem_append, mem_singleton,
      whenMatched, arguments] at hj ⊢
    omega

/-! ## All rules -/

/-- Is this a call of a name that no scope binds? -/
def Expr.callsByName (has : String → Bool) : Expr → Bool
  | .call _ (.var _ name _) _ _ => !has name
  | _ => false

/-- The subexpressions a node's rule has to check. -/
def Expr.needs (has : String → Bool) (e : Expr) : List Nat :=
  if e.callsByName has then span 1 (e.children.length - 1) else span 0 e.children.length

variable {env : CheckEnv}

theorem callRule_covers (builtins : BuiltinsCheckArguments env) (i : ExprInfo) (callee : Expr)
    (args : List Expr) (ref : Resolution) (tok : Token) (expected : Option Ty) :
    (callRule env (.call i callee args ref) tok callee args expected).Covers has []
      (whenOk ((Expr.call i callee args ref).needs has)) := by
  refine covers_scope_bind fun v hv => ?_
  have asValue := @valueCallRule_covers has tok callee args
  split
  · rename_i info name ref'
    cases bound : has name with
    | true => simpa [hv, bound, Expr.needs, Expr.callsByName, Expr.children] using asValue
    | false =>
      have byName := @namedCallRule_covers has _ builtins i (.var info name ref') args ref tok
        name expected
      simpa [hv, bound, Expr.needs, Expr.callsByName, Expr.children, arguments] using byName
  · rename_i notVar
    have noName : (Expr.call i callee args ref).callsByName has = false := by
      cases callee <;> simp_all [Expr.callsByName]
    simpa [Expr.needs, noName, Expr.children] using asValue

theorem typingRule_covers (builtins : BuiltinsCheckArguments env) (e : Expr)
    (expected : Option Ty) :
    (typingRule env e expected).Covers has [] (whenOk (e.needs has)) := by
  have leaf (r : Rule Typed) : r.Covers has [] (whenOk []) :=
    covers_nothing fun a => by cases a <;> rfl
  cases e with
  | int | float | bool | nil | string | var | enum => exact leaf _
  | lambda => exact covers_pure (by simp)
  | unary i op operand => exact unaryRule_covers i.tok op
  | binary i op l r => exact binaryRule_covers env.toTypeEnv i.tok op l r
  | call i callee args ref => exact callRule_covers builtins i callee args ref i.tok expected
  | method i receiver name args ref => exact methodRule_covers env.toTypeEnv i.tok name args expected
  | array i items => exact arrayRule_covers i.tok items expected
  | set i items => exact setRule_covers env.toTypeEnv i.tok items expected
  | index i base left => exact indexRule_covers i.tok left
  | field i base name ref => exact fieldRule_covers env.toTypeEnv i.tok name
  | struct i spec fields values ref =>
    exact structRule_covers env.toTypeEnv i.tok spec fields values
  | map i keys values =>
    have entries := @mapRule_covers has i.tok keys values expected
    rw [← length_append] at entries
    exact entries
  | propagate i operand => exact propagateRule_covers i.tok

/-! ## What a rule records -/

theorem checkArguments_records (args : List (Expr × Ty)) (i : Nat) (seen : List Nat)
    (ref : Resolution) :
    (checkArguments args i).Always has (fun _ ref' _ => ref' = ref) seen ref := by
  induction args generalizing i seen with
  | nil => rfl
  | cons arg rest ih =>
    obtain ⟨arg, want⟩ := arg
    refine ⟨fun d => rfl, fun got => ?_⟩
    show Rule.Always has _ (if compatible want got then checkArguments rest (i + 1) else _) _ _
    split
    · exact ih (i + 1) _
    · rfl

theorem valueCallRule_records (callee : Expr) (args : List Expr) (seen : List Nat)
    (ref : Resolution) :
    (valueCallRule tok callee args).Always has (fun _ ref' _ => ref' = ref) seen ref := by
  refine ⟨fun d => rfl, fun calleeType => ?_⟩
  cases calleeType with
  | function params ret =>
    show Rule.Always has _ (if _ then _ else _) _ _
    split
    · rfl
    · refine Always.bind ?_ (checkArguments_records _ 0 _ ref)
      rintro seen' ref' d rfl
      cases d with
      | none => rfl
      | some d => rfl
  | _ => rfl

theorem callRule_records (i : ExprInfo) (callee : Expr) (args : List Expr) (ref : Resolution)
    (expected : Option Ty) (seen : List Nat) :
    (callRule env (.call i callee args ref) i.tok callee args expected).Always has
      (fun _ ref' _ => ref'.function.isSome = true →
        ref.function.isSome = true ∨ (Expr.call i callee args ref).callsByName has = true)
      seen ref := by
  intro v hv
  have asValue : (valueCallRule i.tok callee args).Always has (fun _ ref' _ =>
      ref'.function.isSome = true → ref.function.isSome = true ∨
        (Expr.call i callee args ref).callsByName has = true) seen ref :=
    (valueCallRule_records i.tok callee args seen ref).mono fun _ ref' _ same h =>
      Or.inl (by rwa [same] at h)
  split
  · rename_i info name ref'
    show Rule.Always has _ (if v.has name = true then _ else _) seen ref
    split
    · exact asValue
    · rename_i unbound
      rw [hv] at unbound
      exact always_of_forall (fun _ _ _ _ => Or.inr (by simpa [Expr.callsByName] using unbound)) _ _ _
  · exact asValue

theorem selectFunctionValue_records (env : TypeEnv) (expected : Option Ty) (ambiguous : Diagnostic)
    (candidates : List Candidate) (matched : Option (Candidate × Ty)) (seen : List Nat)
    (ref : Resolution) :
    (selectFunctionValue env expected ambiguous candidates matched).Always has
      (fun _ ref' _ => ref'.definition = ref.definition ∧ ref'.function = ref.function) seen ref := by
  induction candidates generalizing matched ref with
  | nil => exact ⟨rfl, rfl⟩
  | cons f rest ih =>
    unfold selectFunctionValue
    split
    · exact ih _ _
    · rename_i arguments t _
      dsimp only
      -- recording the type arguments touches neither
      split
      · show Rule.Always has _ (if matched.isSome = true then _ else _) seen _
        split
        · exact ⟨rfl, rfl⟩
        · exact ih (some (f, t)) { ref with genericArguments := arguments }
      · split
        · exact ⟨rfl, rfl⟩
        · exact ih _ _

theorem functionValueRule_records (env : TypeEnv) (tok : Token) (name : String) (expected : Option Ty)
    (seen : List Nat) (ref : Resolution)
    (before : ref.definition.isSome = true → ref.function.isSome = true) :
    (functionValueRule env tok name expected).Always has
      (fun _ ref' t => (ref'.definition.isSome = true → ref'.function.isSome = true) ∧
        ∀ ty, t = .ok ty → ref'.definition.isSome = true) seen ref := by
  intro v _
  show Rule.Always has _ (if _ then _ else _) seen ref
  split
  · exact ⟨before, fun _ h => by cases h⟩
  · refine Always.bind ?_ (selectFunctionValue_records env expected _ _ none seen ref)
    rintro seen' ref' r ⟨definition, function⟩
    match r with
    | .error d => exact ⟨by rwa [definition, function], fun _ h => by cases h⟩
    | .ok (some (f, t)) => exact ⟨fun _ => rfl, fun _ _ => rfl⟩
    | .ok none =>
      dsimp only
      split <;> exact ⟨by rwa [definition, function], fun _ h => by cases h⟩

end Rules

end Kryndel
