import Kryndel.Checker.Places

/-!
# What the checker records

The checker leaves three kinds of record in the tree: the scope and declaration of
each reference, the captures of each closure, and a type on each expression it is
done with. `Sound` says what a record means at the place it stands in, and
`Visited` that the records of a part are all there. Both are about the blocks
around the part; the scopes enter through the table the whole check ends with,
because a recorded scope is looked up again after the check.
-/

namespace Kryndel

open Lexical List

/-! ## Captures -/

/-- The identities of captures. -/
def captureKeys (captures : List Capture) : List (String × Nat × String) :=
  captures.map fun c => captureIdentity c.token c.name

/-- The identity of the capture that a read from outside a closure needs. -/
def readKey (r : Nat × String × Decl) : String × Nat × String := captureIdentity r.2.2.token r.2.1

variable {captures : List Capture}

theorem mem_keys_addCapture {capture : Capture} {key : String × Nat × String} :
    key ∈ captureKeys (addCapture captures capture) ↔
      key ∈ captureKeys captures ∨ key = captureIdentity capture.token capture.name := by
  unfold addCapture
  split
  · rename_i known
    simp only [any_eq_true, beq_iff_eq] at known
    obtain ⟨c, mem, same⟩ := known
    constructor
    · exact Or.inl
    · rintro (old | rfl)
      · exact old
      · exact same ▸ mem_map.mpr ⟨c, mem, rfl⟩
  · simp [captureKeys]

/-! ## The meaning of records -/

/-- A reference's record is right at its place: it names the declaration in force
    there, and the recorded scope holds the declaration the blocks end with. -/
def RefRight (hf : Scopes) (c : Blocks) (name : String) (m : Mark) : Prop :=
  match resolve .now c name with
  | none => m.isFunction = true
  | some (_, d) => m.definition = some d.token ∧
      ∃ s, m.scope = some s ∧ (hf.lookup s name).map Binding.decl = (resolve .fin c name).map (·.2)

/-- All records of a part are there. Names that no block declares are functions. -/
def Visited (c : Blocks) : Sketch → Prop
  | .use name m => (resolve .now c name).isSome = true → m.definition.isSome = true
  | .assign _ m => m.definition.isSome = true
  | .closure done _ _ _ => done = true
  | _ => True

/-- A part at the closure level `level` has what it reads from outside the closure
    among the closure's captures. -/
def Recorded (keys : List (String × Nat × String)) (level : Nat) (c : Blocks) (s : Sketch) : Prop :=
  c.level = level →
    match s with
    | .use _ m => m.definition.isSome = true →
        ∀ r, readOf (c, s) = some r → r.1 < level → readKey r ∈ keys
    | .closure done _ params body => done = true →
        ∀ r ∈ outsideReads c params body, r.1 < level → readKey r ∈ keys
    | _ => True

/-- The records of a part are right. A part the checker is done with has all of its
    records, and a closure's captures are among what it reads from outside. -/
def Sound (hf : Scopes) (c : Blocks) : Sketch → Prop
  | .use name m =>
      (m.definition.isSome = true → RefRight hf c name m) ∧
        (m.typed = true → m.definition.isSome = true) ∧
          (m.isFunction = true → resolve .now c name = none)
  | .assign name m => (m.definition.isSome = true → RefRight hf c name m) ∧ m.isFunction = false
  | .node done parts => done = true → ∀ p ∈ parts, Everywhere Visited c p
  | .call done direct callee args =>
      (done = true → Everywhere Visited c callee ∧ ∀ p ∈ args, Everywhere Visited c p) ∧
        (direct = true → ∃ name m, callee = .use name m ∧ resolve .now c name = none)
  | .block _ _ => True
  | .closure done captured params body =>
      (∀ x ∈ closureParts c params body, Recorded (captureKeys captured) (c.level + 1) x.1 x.2) ∧
        (∀ key ∈ captureKeys captured, ∃ r ∈ outsideReads c params body, readKey r = key) ∧
          (done = true → ∀ x ∈ closureParts c params body, Visited x.1 x.2)

variable {s : Sketch} {level : Nat}

theorem Recorded.mono {keys keys' : List (String × Nat × String)} (sub : keys ⊆ keys') {c : Blocks}
    (h : Recorded keys level c s) : Recorded keys' level c s := by
  intro here
  have recorded := h here
  cases s with
  | use name m => exact fun found r read out => sub (recorded found r read out)
  | closure done captured params body => exact fun fin r mem out => sub (recorded fin r mem out)
  | _ => trivial

/-- The records of a part while a closure's captures are `captures`. -/
structure Holds (hf : Scopes) (captures : List Capture) (c : Blocks) (s : Sketch) : Prop where
  sound : Everywhere (Sound hf) c s
  recorded : Everywhere (Recorded (captureKeys captures) c.level) c s

theorem Holds.mono {hf : Scopes} {captures captures' : List Capture} {c : Blocks}
    (sub : captureKeys captures ⊆ captureKeys captures') (h : Holds hf captures c s) :
    Holds hf captures' c s where
  sound := h.sound
  recorded := h.recorded.mono fun _ _ r => r.mono sub

theorem visited_of_typed {hf : Scopes} {c : Blocks} {e : Expr}
    (sound : Everywhere (Sound hf) c e.skel) (typed : e.type.isSome = true) :
    Everywhere Visited c e.skel := by
  cases e with
  | var i name ref =>
    simp only [Expr.skel, everywhere_use, Sound, Visited] at sound ⊢
    exact fun _ => sound.2.1 typed
  | lambda i sig body captures =>
    simp only [Expr.skel, everywhere_closure, Sound] at sound ⊢
    exact ⟨typed, sound.1.2.2 typed⟩
  | call i callee args ref =>
    simp only [Expr.skel, everywhere_call, Sound] at sound ⊢
    exact ⟨trivial, sound.1.1 typed⟩
  | _ =>
    simp only [Expr.skel, everywhere_node, Sound] at sound ⊢
    exact ⟨trivial, sound.1 typed⟩

variable {r : Nat × String × Decl}

theorem captures_complete {hf : Scopes} {c : Blocks} {captured : List Capture}
    {params : List (String × Decl)} {body : List SketchItem}
    (sound : Sound hf c (.closure true captured params body))
    (mem : r ∈ outsideReads c params body) :
    readKey r ∈ captureKeys captured := by
  obtain ⟨recorded, -, visited⟩ := sound
  have outside : r.1 ≤ c.level := by
    simp only [outsideReads, mem_filter, decide_eq_true_eq] at mem
    exact mem.2
  simp only [outsideReads, mem_filter, mem_filterMap] at mem
  obtain ⟨⟨x, inside, read⟩, -⟩ := mem
  have here := visited rfl x inside
  rcases level_or_closureItems c _ (c.level + 1) params body x inside with
    level | ⟨d, done, nested, params', body', mem', level, below⟩
  · -- the read stands in the closure itself
    obtain ⟨d, s⟩ := x
    cases s with
    | use name m =>
      refine recorded _ inside level (here ?_) r read (Nat.lt_succ_of_le outside)
      simp only [readOf, Option.map_eq_some_iff] at read
      obtain ⟨p, found, -⟩ := read
      simp [found]
    | _ => simp [readOf] at read
  · -- the read stands in a nested closure
    have nestedDone : done = true := visited rfl _ mem'
    refine recorded _ mem' level nestedDone r ?_ (Nat.lt_succ_of_le outside)
    simp only [outsideReads, mem_filter, mem_filterMap, decide_eq_true_eq]
    exact ⟨⟨x, below, read⟩, by omega⟩

/-! ## Reads of a part -/

/-- Some part of a skeleton reads `r`. -/
def Reads (c : Blocks) {μ κ : Type} (s : Skel String Decl μ κ) (r : Nat × String × Decl) : Prop :=
  ∃ x ∈ subs c s, readOf x = some r

theorem reads_erase {c : Blocks} :
    Reads c s.erase r ↔ Reads c s r := by
  simp only [Reads, subs_erase, mem_map]
  constructor
  · rintro ⟨_, ⟨x, mem, rfl⟩, read⟩
    exact ⟨x, mem, by rwa [readOf_erasePlace] at read⟩
  · rintro ⟨x, mem, read⟩
    exact ⟨_, ⟨x, mem, rfl⟩, by rwa [readOf_erasePlace]⟩

theorem reads_congr {c : Blocks} {s t : Sketch} (same : s.erase = t.erase) :
    Reads c s r ↔ Reads c t r := by
  rw [← reads_erase, same, reads_erase]

theorem reads_iff {c : Blocks} :
    Reads c s r ↔ ¬Everywhere (fun d t => readOf (d, t) ≠ some r) c s := by
  simp [Reads, Everywhere]

/-! ## What a run does -/

/-- The trees a run can leave for an expression: the same program text, with at least
    the types it had. -/
structure Revised (e e' : Expr) : Prop where
  outline : e'.skel.erase = e.skel.erase
  dead : e'.dead = e.dead
  typed : e.type.isSome = true → e'.type.isSome = true

theorem Revised.refl (e : Expr) : Revised e e := ⟨rfl, rfl, id⟩

theorem Revised.trans {a b c : Expr} (ab : Revised a b) (bc : Revised b c) : Revised a c where
  outline := bc.outline.trans ab.outline
  dead := bc.dead.trans ab.dead
  typed h := bc.typed (ab.typed h)

/-- The state a run without errors leaves: quiet, with more captures. -/
structure Step (st st' : CheckState) : Prop where
  err : st.err = none
  quiet : Quiet st st'
  captures : captureKeys st.captures ⊆ captureKeys st'.captures

theorem Step.refl {st : CheckState} (err : st.err = none) : Step st st :=
  ⟨err, .refl st, fun _ h => h⟩

theorem Step.trans {a b c : CheckState} (ab : Step a b) (bc : Step b c) : Step a c where
  err := ab.err
  quiet := ab.quiet.trans bc.quiet
  captures _ h := bc.captures (ab.captures h)

/-- A run that starts in `st` and leaves the scopes `after` stands in the blocks `c`,
    and `hf` are the scopes the whole check ends with. -/
structure Standing (tag : Nat → Option FunctionRef) (hf : Scopes) (st : CheckState) (sc : ScopeRef)
    (c : Blocks) (after : Scopes) : Prop where
  place : At tag st sc c
  blocks : Matches .fin hf sc c
  final : Final st.scopes.length after hf

section Standing

variable {tag : Nat → Option FunctionRef} {hf : Scopes} {st st' : CheckState} {sc : ScopeRef}
  {c : Blocks} {after : Scopes}

theorem Standing.before {h : Scopes} (s : Standing tag hf st sc c after) (kept : Kept h after) :
    Standing tag hf st sc c h :=
  ⟨s.place, s.blocks, .of_kept kept s.final⟩

theorem Standing.unfilled {h : Scopes} (s : Standing tag hf st sc c after)
    (fill : Filling sc h after) : Standing tag hf st sc c h :=
  ⟨s.place, s.blocks, .of_filling fill s.place.bound s.final⟩

theorem Standing.later (s : Standing tag hf st sc c after) (quiet : Quiet st st') :
    Standing tag hf st' sc c after :=
  ⟨s.place.of_quiet quiet, s.blocks, s.final.mono quiet.scopes.length⟩

end Standing

/-- The captures of the current closure grew by what some part reads from outside. -/
def Grown (level : Nat) (reads : Nat × String × Decl → Prop) (captures captures' : List Capture) :
    Prop :=
  ∀ key ∈ captureKeys captures', key ∈ captureKeys captures ∨
    ∃ r, reads r ∧ r.1 < level ∧ readKey r = key

variable {reads : Nat × String × Decl → Prop}

theorem Grown.refl :
    Grown level reads captures captures := fun _ h => Or.inl h

theorem Grown.trans {a b c : List Capture} (ab : Grown level reads a b)
    (bc : Grown level reads b c) :
    Grown level reads a c := by
  intro key mem
  rcases bc key mem with mem | new
  · exact ab key mem
  · exact Or.inr new

theorem Grown.mono {reads reads' : Nat × String × Decl → Prop} {a b : List Capture}
    (imp : ∀ r, reads r → reads' r) (h : Grown level reads a b) :
    Grown level reads' a b := by
  intro key mem
  rcases h key mem with old | ⟨r, read, out, same⟩
  · exact Or.inl old
  · exact Or.inr ⟨r, imp r read, out, same⟩

/-- What a run on an expression does, if it ends without error. -/
structure ExprOutcome (sc : ScopeRef) (st : CheckState) (e : Expr) (r : Expr × Typed)
    (st' : CheckState) : Prop where
  step : Step st st'
  revised : Revised e r.1
  typed : ∀ t, r.2 = .ok t → r.1.type.isSome = true
  holds : ∀ tag hf c, Standing tag hf st sc c st'.scopes → Holds hf st.captures c e.skel →
    Holds hf st'.captures c r.1.skel ∧ Grown c.level (Reads c e.skel) st.captures st'.captures

/-- Every run of a pass over expressions has its outcome. -/
def ExprSpec (run : ScopeRef → Expr → Option Ty → CheckM (Expr × Typed)) : Prop :=
  ∀ sc e expected st, (run sc e expected st).2.err = none →
    ExprOutcome sc st e (run sc e expected st).1 (run sc e expected st).2

/-! ## Blocks -/

/-- The records of the statements of a block. -/
structure HoldsItems (hf : Scopes) (captures : List Capture) (f : Frame String Decl) (c : Blocks)
    (items : List SketchItem) : Prop where
  sound : EverywhereItems (Sound hf) c f.fin f.level f.now items
  recorded : EverywhereItems (Recorded (captureKeys captures) f.level) c f.fin f.level f.now items

/-- Some part of a block's statements reads `r`. -/
def ReadsItems (f : Frame String Decl) (c : Blocks) (items : List SketchItem)
    (r : Nat × String × Decl) : Prop :=
  ∃ x ∈ subsItems c f.fin f.level f.now items, readOf x = some r

/-- What checking statements leaves as it is: everything but the innermost scope. -/
structure Busy (sc : ScopeRef) (st st' : CheckState) : Prop where
  scopes : Filling sc st.scopes st'.scopes
  currentReturn : st'.currentReturn = st.currentReturn
  currentFunction : st'.currentFunction = st.currentFunction
  currentLambda : st'.currentLambda = st.currentLambda

theorem Quiet.busy {sc : ScopeRef} {st st' : CheckState} (quiet : Quiet st st') : Busy sc st st' :=
  ⟨quiet.scopes.filling, quiet.currentReturn, quiet.currentFunction, quiet.currentLambda⟩

theorem Busy.trans {sc : ScopeRef} {a b c : CheckState} (ab : Busy sc a b) (bc : Busy sc b c) :
    Busy sc a c where
  scopes := ab.scopes.trans bc.scopes
  currentReturn := bc.currentReturn.trans ab.currentReturn
  currentFunction := bc.currentFunction.trans ab.currentFunction
  currentLambda := bc.currentLambda.trans ab.currentLambda

/-- What a run on one statement's part and declaration does, in the scope `i :: sc`. -/
structure ItemOutcome (i : Nat) (sc : ScopeRef) (st : CheckState) (before after : SketchItem)
    (st' : CheckState) : Prop where
  err : st.err = none
  busy : Busy (i :: sc) st st'
  captures : captureKeys st.captures ⊆ captureKeys st'.captures
  decls : (st'.scopes.record i).decls = extend (st.scopes.record i).decls before.decl
  outline : after.part.erase = before.part.erase
  decl : after.decl = before.decl
  holds : ∀ tag hf f c, Standing tag hf st (i :: sc) (f :: c) st'.scopes →
    Holds hf st.captures (f :: c) before.part →
      Holds hf st'.captures (f :: c) after.part ∧
        Grown f.level (Reads (f :: c) before.part) st.captures st'.captures ∧
          Everywhere Visited (f :: c) after.part

/-- What a run on a statement does, if it ends without error. -/
structure StmtOutcome (i : Nat) (sc : ScopeRef) (st : CheckState) (s : Stmt) (r : Stmt × Flow)
    (st' : CheckState) : Prop extends ItemOutcome i sc st s.item r.1.item st' where
  dead : r.1.dead = s.dead
  falls : r.1.falls = s.falls
  flow : r.2.mayFallthrough = s.falls

/-- What a run on the parts and declarations of a block does. -/
structure ItemsOutcome (i : Nat) (sc : ScopeRef) (st : CheckState) (before after : List SketchItem)
    (st' : CheckState) : Prop where
  err : st.err = none
  busy : Busy (i :: sc) st st'
  captures : captureKeys st.captures ⊆ captureKeys st'.captures
  decls : (st'.scopes.record i).decls = declared (st.scopes.record i).decls before
  outline : eraseItems after = eraseItems before
  holds : ∀ tag hf f c, Standing tag hf st (i :: sc) (f :: c) st'.scopes →
    f.fin = declared f.now before → HoldsItems hf st.captures f c before →
      HoldsItems hf st'.captures f c after ∧
        Grown f.level (ReadsItems f c before) st.captures st'.captures ∧
          EverywhereItems Visited c f.fin f.level f.now after

/-- What a run on the statements of a block does, if it ends without error. -/
structure BlockOutcome (i : Nat) (sc : ScopeRef) (st : CheckState) (body : List Stmt)
    (r : List Stmt × Flow) (st' : CheckState) : Prop
    extends ItemsOutcome i sc st (stmtItems body) (stmtItems r.1) st' where
  dead : stmtsDead r.1 = stmtsDead body
  falls : blockFalls r.1 = blockFalls body
  flow : r.2.mayFallthrough = blockFalls body

section Items

variable {i : Nat} {sc : ScopeRef} {st st₁ st' : CheckState} {before after : List SketchItem}

theorem ItemsOutcome.nil (err : st.err = none) : ItemsOutcome i sc st [] [] st where
  err := err
  busy := (Quiet.refl st).busy
  captures _ h := h
  decls := rfl
  outline := rfl
  holds _ _ _ _ _ _ holds := ⟨holds, .refl, everywhereItems_nil⟩

theorem ItemsOutcome.cons {item item' : SketchItem} (h : ItemOutcome i sc st item item' st₁)
    (t : ItemsOutcome i sc st₁ before after st') :
    ItemsOutcome i sc st (item :: before) (item' :: after) st' where
  err := h.err
  busy := h.busy.trans t.busy
  captures _ mem := t.captures (h.captures mem)
  decls := by rw [t.decls, h.decls, declared_cons]
  outline := by simp [eraseItems_cons, h.outline, h.decl, t.outline]
  holds tag hf f c standing fin holds := by
    obtain ⟨soundHere, soundRest⟩ := everywhereItems_cons.mp holds.sound
    obtain ⟨recordedHere, recordedRest⟩ := everywhereItems_cons.mp holds.recorded
    obtain ⟨hold, grown, visited⟩ := h.holds tag hf f c (standing.unfilled t.busy.scopes)
      ⟨soundHere, recordedHere⟩
    -- the rest stands after the declaration
    have now : (st₁.scopes.record i).decls = extend f.now item.decl := by
      cases standing.place.names with
      | cons here _ => rw [h.decls, here]; rfl
    have place := standing.place.of_filling h.busy.scopes h.busy.currentLambda
    rw [now] at place
    have later : Standing tag hf st₁ (i :: sc) ({ f with now := extend f.now item.decl } :: c)
        st'.scopes := by
      refine ⟨place, ?_, standing.final.mono h.busy.scopes.length⟩
      cases standing.blocks with
      | cons here below => exact .cons here below
    obtain ⟨hold', grown', visited'⟩ := t.holds tag hf _ c later (by rw [fin, declared_cons])
      ⟨soundRest, recordedRest.mono fun _ _ r => r.mono h.captures⟩
    refine ⟨⟨?_, ?_⟩, ?_, ?_⟩
    · exact everywhereItems_cons.mpr ⟨hold.sound, h.decl ▸ hold'.sound⟩
    · exact everywhereItems_cons.mpr
        ⟨hold.recorded.mono fun _ _ r => r.mono t.captures, h.decl ▸ hold'.recorded⟩
    · refine (grown.mono ?_).trans (grown'.mono ?_)
      · rintro r ⟨x, mem, read⟩
        exact ⟨x, by rw [subsItems_cons]; exact mem_append_left _ mem, read⟩
      · rintro r ⟨x, mem, read⟩
        exact ⟨x, by rw [subsItems_cons]; exact mem_append_right _ mem, read⟩
    · exact everywhereItems_cons.mpr ⟨visited, h.decl ▸ visited'⟩

theorem ItemsOutcome.kept (h : ItemsOutcome i sc st₁ before after st') {base : Scopes}
    (kept : Kept base st₁.scopes) (fresh : base.length ≤ i) : Kept base st'.scopes :=
  h.busy.scopes.kept kept fresh

theorem ItemsOutcome.standing {tag tag' : Nat → Option FunctionRef} {hf : Scopes} {c : Blocks}
    (h : ItemsOutcome i sc st₁ before after st') (s : Standing tag hf st sc c st'.scopes)
    (fresh : st.scopes.length ≤ i) (inside : i < st₁.scopes.length) {f : Frame String Decl}
    (fin : f.fin = declared f.now before) (place : At tag' st₁ (i :: sc) (f :: c)) :
    Standing tag' hf st₁ (i :: sc) (f :: c) st'.scopes where
  place := place
  blocks := by
    refine .cons ?_ s.blocks
    have now : (st₁.scopes.record i).decls = f.now := by
      cases place.names with
      | cons here _ => exact here
    rw [s.final i fresh (Nat.lt_of_lt_of_le inside h.busy.scopes.length), h.decls, now, ← fin]
    rfl
  final := s.final.mono (by omega)

end Items

/-- Every run of a pass over blocks has its outcome. -/
def BlockSpec (run : ScopeRef → List Stmt → BlockContext → CheckM (List Stmt × Flow)) : Prop :=
  ∀ i sc body ctx st, i < st.scopes.length → (run (i :: sc) body ctx st).2.err = none →
    BlockOutcome i sc st body (run (i :: sc) body ctx st).1 (run (i :: sc) body ctx st).2

end Kryndel
