import Kryndel.Kir.TreeForm

/-!
# Lowering expressions and statements

The rows that the builder appends for an expression or a statement read back as its tree form.
On the way the parameters are counted: those of closures, which have no defaults, are the only
ones, and there are some exactly if there is a closure with parameters.
-/

namespace Kryndel

open Tables List
open Filter (atTop eventually_atTop)
open Mir (NodeKind readExpression readStatement readFunction readBinding readPattern readCapture
  readParameter readArm readList ListReads)

/-- The tables of the builder. -/
abbrev SourceTables := Mir.MIRTables sourceScalars

/-- The references of some rows are in bounds. -/
def RowsChecked (c : SourceTables) (rows : List (Address NodeKind)) : Prop :=
  ∀ x ∈ rows, ∀ row, c.row x = some row → Mir.checkRow c x.1 row = true

theorem RowsChecked.nil (c : SourceTables) : RowsChecked c [] := by
  intro x hx
  cases hx

theorem RowsChecked.append {c : SourceTables} {rows rows' : List (Address NodeKind)}
    (h : RowsChecked c rows) (h' : RowsChecked c rows') : RowsChecked c (rows ++ rows') := by
  intro x hx row hrow
  rcases mem_append.mp hx with hx | hx
  · exact h x hx row hrow
  · exact h' x hx row hrow

theorem RowsChecked.cons {c : SourceTables} {rows : List (Address NodeKind)} {k : NodeKind}
    {i : Nat} {row : Mir.MIRRow sourceScalars k} (hrow : c.row (k, i) = some row)
    (hcheck : Mir.checkRow c k row = true) (h : RowsChecked c rows) :
    RowsChecked c ((k, i) :: rows) := by
  intro x hx row' hrow'
  rcases mem_cons.mp hx with rfl | hx
  · obtain rfl := Option.some.inj (hrow.symm.trans hrow')
    exact hcheck
  · exact h x hx row' hrow'

/-- The references of some rows are in bounds. There are parameters among them exactly if
    `adds`, and none has a default. -/
structure AddedParameters (c : SourceTables) (rows : List (Address NodeKind)) (adds : Bool) :
    Prop where
  checked : RowsChecked c rows
  bare : ∀ i (row : Mir.MIRParameter sourceScalars), (NodeKind.parameter, i) ∈ rows →
    c.row (.parameter, i) = some row → row.default = none
  any : adds = true ↔ ∃ i, (NodeKind.parameter, i) ∈ rows

theorem AddedParameters.nil (c : SourceTables) : AddedParameters c [] false where
  checked := RowsChecked.nil c
  bare i row hmem := by cases hmem
  any := by simp

theorem AddedParameters.append {c : SourceTables} {rows rows' : List (Address NodeKind)}
    {adds adds' : Bool} (h : AddedParameters c rows adds) (h' : AddedParameters c rows' adds') :
    AddedParameters c (rows ++ rows') (adds || adds') where
  checked := h.checked.append h'.checked
  bare i row hmem hrow := by
    rcases mem_append.mp hmem with hmem | hmem
    · exact h.bare i row hmem hrow
    · exact h'.bare i row hmem hrow
  any := by
    rw [Bool.or_eq_true, h.any, h'.any]
    simp only [mem_append, exists_or]

theorem AddedParameters.cons {c : SourceTables} {rows : List (Address NodeKind)} {adds : Bool}
    {k : NodeKind} {i : Nat} {row : Mir.MIRRow sourceScalars k} (hk : k ≠ .parameter)
    (hrow : c.row (k, i) = some row) (hcheck : Mir.checkRow c k row = true)
    (h : AddedParameters c rows adds) : AddedParameters c ((k, i) :: rows) adds := by
  have hne : ∀ j, (NodeKind.parameter, j) ≠ (k, i) := by
    intro j heq
    exact hk (Prod.mk.inj heq).1.symm
  refine ⟨h.checked.cons hrow hcheck, ?_, ?_⟩
  · intro j row hmem hrow
    rcases mem_cons.mp hmem with heq | hmem
    · exact absurd heq (hne j)
    · exact h.bare j row hmem hrow
  · simp [h.any, hne]

/-! ## Programs of the builder -/

/-- Some rows are placed in the tables of an arena, and its list of functions stays as it is. -/
structure Puts (a b : KIRArena) (new : List (Address NodeKind)) (P : SourceTables → Prop) :
    Prop where
  top : b.topFunctions = a.topFunctions
  places : Places (tablesOf a) (tablesOf b) new P

theorem Puts.nil (a : KIRArena) : Puts a a [] fun _ => True :=
  ⟨rfl, Places.nil (tablesOf a)⟩

variable {Q P : SourceTables → Prop} {new : List (Address NodeKind)}

theorem Puts.mono {a b : KIRArena} (h : Puts a b new P) (hPQ : ∀ c, P c → Q c) : Puts a b new Q :=
  ⟨h.top, h.places.mono hPQ⟩

theorem Puts.trans {a b b' : KIRArena} {new new' : List (Address NodeKind)} (h : Puts a b new P)
    (h' : Puts b b' new' Q) :
    Puts a b' (new ++ new') fun c => P c ∧ Q c :=
  ⟨h'.top.trans h.top, h.places.trans h'.places⟩

/-- A program of the builder appends rows, with parameters among them if `adds`, so that `F`
    holds of its result wherever they are kept. -/
def Lowers {ρ : Type} (m : BuildM ρ) (adds : Bool) (F : ρ → SourceTables → Prop) : Prop :=
  ∀ a, ∃ new, Puts a (m a).2 new fun c => AddedParameters c new adds ∧ F (m a).1 c

/-- What holds after a program of the builder that comes after others. -/
def LowersAfter {ρ : Type} (before : Bool) (G : SourceTables → Prop) (m : BuildM ρ)
    (adds : Bool) (F : ρ → SourceTables → Prop) : Prop :=
  ∀ a, ∃ new, Puts a (m a).2 new fun c => ∀ old, AddedParameters c old before → G c →
    AddedParameters c (old ++ new) adds ∧ F (m a).1 c

section Rules

variable {ρ τ : Type} {m : BuildM ρ} {adds adds' before : Bool} {F : ρ → SourceTables → Prop}
  {G : SourceTables → Prop}

theorem LowersAfter.lowers (h : LowersAfter false (fun _ => True) m adds F) :
    Lowers m adds F := by
  intro a
  obtain ⟨new, hputs⟩ := h a
  refine ⟨new, hputs.mono ?_⟩
  intro c hc
  exact hc [] (AddedParameters.nil c) trivial

variable {F' : τ → SourceTables → Prop} {f : ρ → BuildM τ}

theorem LowersAfter.bind (hm : LowersAfter before G m adds F)
    (hf : ∀ r, LowersAfter adds (fun c => G c ∧ F r c) (f r) adds' F') :
    LowersAfter before G (m >>= f) adds' F' := by
  intro a
  obtain ⟨new, hputs⟩ := hm a
  obtain ⟨new', hputs'⟩ := hf (m a).1 (m a).2
  refine ⟨new ++ new', (hputs.trans hputs').mono ?_⟩
  intro c hc old hold hG
  obtain ⟨hadded, hF⟩ := hc.1 old hold hG
  rw [← append_assoc]
  exact hc.2 _ hadded ⟨hG, hF⟩

theorem Lowers.after (hm : Lowers m adds F) : LowersAfter before G m (before || adds) F := by
  intro a
  obtain ⟨new, hputs⟩ := hm a
  refine ⟨new, hputs.mono ?_⟩
  intro c hc old hold _
  exact ⟨hold.append hc.1, hc.2⟩

theorem Lowers.bind (hm : Lowers m adds F)
    (hf : ∀ r, LowersAfter (before || adds) (fun c => G c ∧ F r c) (f r) adds' F') :
    LowersAfter before G (m >>= f) adds' F' :=
  hm.after.bind hf

theorem LowersAfter.pure (r : ρ) (hadds : before = adds) (h : ∀ c, G c → F r c) :
    LowersAfter before G (pure r) adds F := by
  intro a
  refine ⟨[], (Puts.nil a).mono ?_⟩
  intro c _ old hold hG
  rw [append_nil, ← hadds]
  exact ⟨hold, h c hG⟩

theorem Lowers.last {F' : ρ → SourceTables → Prop} (hm : Lowers m adds F)
    (hadds : (before || adds) = adds') (h : ∀ r c, G c → F r c → F' r c) :
    LowersAfter before G m adds' F' := by
  intro a
  obtain ⟨new, hputs⟩ := hm a
  refine ⟨new, hputs.mono ?_⟩
  intro c hc old hold hG
  rw [← hadds]
  exact ⟨hold.append hc.1, h _ c hG hc.2⟩

theorem Lowers.mono {F' : ρ → SourceTables → Prop} (hm : Lowers m adds F)
    (h : ∀ r c, F r c → F' r c) : Lowers m adds F' := by
  intro a
  obtain ⟨new, hputs⟩ := hm a
  exact ⟨new, hputs.mono fun c hc => ⟨hc.1, h _ c hc.2⟩⟩

theorem Lowers.pure (r : ρ) (h : ∀ c, F r c) : Lowers (pure r) false F :=
  fun a => ⟨[], (Puts.nil a).mono fun c _ => ⟨AddedParameters.nil c, h c⟩⟩

theorem Lowers.map {g : ρ → τ} {F' : τ → SourceTables → Prop} (hm : Lowers m adds F)
    (h : ∀ r c, F r c → F' (g r) c) : Lowers (g <$> m) adds F' := by
  intro a
  obtain ⟨new, hputs⟩ := hm a
  exact ⟨new, hputs.mono fun c hc => ⟨hc.1, h _ c hc.2⟩⟩

/-- A program that puts down a row before those of its children, and completes it after them. -/
structure Wraps (k : NodeKind) (m : BuildM Nat) (edges : BuildM τ)
    (toRow : τ → Mir.MIRRow sourceScalars k) (place : KIRArena → KIRArena)
    (complete : Nat → τ → KIRArena → KIRArena) : Prop where
  run : ∀ a, m a = (((tablesOf a).rows k).length, complete ((tablesOf a).rows k).length
    (edges (place a)).1 (edges (place a)).2)
  top : ∀ a, (place a).topFunctions = a.topFunctions
  top_complete : ∀ i t a, (complete i t a).topFunctions = a.topFunctions
  place : ∀ a, ∃ blank, tablesOf (place a) = (tablesOf a).place k blank
  complete : ∀ i t a, tablesOf (complete i t a) = (tablesOf a).complete k i (toRow t)

variable {place : KIRArena → KIRArena} {complete : Nat → τ → KIRArena → KIRArena}

theorem Wraps.puts {k : NodeKind} {m : BuildM Nat} {edges : BuildM τ}
    {toRow : τ → Mir.MIRRow sourceScalars k} (hm : Wraps k m edges toRow place complete)
    {a : KIRArena} (h : Puts (place a) (edges (place a)).2 new P) :
    Puts a (m a).2 ((k, (m a).1) :: new)
      fun c => c.row (k, (m a).1) = some (toRow (edges (place a)).1) ∧ P c := by
  obtain ⟨blank, hblank⟩ := hm.place a
  obtain ⟨htop, hplaces⟩ := h
  rw [hblank] at hplaces
  constructor
  · rw [hm.run, hm.top_complete, htop, hm.top]
  · rw [hm.run, hm.complete]
    exact hplaces.node _

theorem Lowers.row {k : NodeKind} (hk : k ≠ .parameter) {m : BuildM Nat} {edges : BuildM τ}
    {toRow : τ → Mir.MIRRow sourceScalars k} (hm : Wraps k m edges toRow place complete)
    {F : τ → SourceTables → Prop} (h : Lowers edges adds F)
    (hcheck : ∀ t c, F t c → Mir.checkRow c k (toRow t) = true) :
    Lowers m adds fun i c => ∃ t, c.row (k, i) = some (toRow t) ∧ F t c := by
  intro a
  obtain ⟨new, hputs⟩ := h (place a)
  refine ⟨_, (hm.puts hputs).mono ?_⟩
  intro c hc
  exact ⟨hc.2.1.cons hk hc.1 (hcheck _ c hc.2.2), _, hc.1, hc.2.2⟩

theorem Lowers.refs {k : NodeKind} {m : BuildM MIRNodeRefList} {indexes : List Nat}
    (hlist : ∀ a, (m a).1.range = (tablesOf a).range k indexes)
    (htables : ∀ a, tablesOf (m a).2 = (tablesOf a).addRefs k indexes)
    (htop : ∀ a, (m a).2.topFunctions = a.topFunctions) :
    Lowers m false fun list c => c.contents k list.range = some indexes := by
  intro a
  refine ⟨[], htop a, ?_⟩
  rw [htables]
  refine ((Places.nil (tablesOf a)).addRefs k indexes).mono ?_
  intro c hc
  refine ⟨AddedParameters.nil c, ?_⟩
  show c.contents k (m a).1.range = _
  rw [hlist]
  exact hc.2

theorem LowersAfter.leaf (k : NodeKind) (row : Mir.MIRRow sourceScalars k) (hk : k ≠ .parameter)
    {m : BuildM ρ} {F : ρ → SourceTables → Prop}
    (htables : ∀ a, tablesOf (m a).2 = (tablesOf a).place k row)
    (htop : ∀ a, (m a).2.topFunctions = a.topFunctions)
    (hcheck : ∀ c, G c → Mir.checkRow c k row = true)
    (h : ∀ a c, G c → c.row (k, ((tablesOf a).rows k).length) = some row → F (m a).1 c) :
    LowersAfter before G m before F := by
  intro a
  refine ⟨[(k, ((tablesOf a).rows k).length)], htop a, ?_⟩
  rw [htables]
  refine (Places.leaf (tablesOf a) k row).mono ?_
  intro c hc old hold hG
  have hadded := (AddedParameters.nil c).cons hk hc (hcheck c hG)
  rw [← Bool.or_false before]
  exact ⟨hold.append hadded, h a c hG hc⟩

end Rules

/-! ## References in bounds -/

section Checks

variable {c : SourceTables} {k : NodeKind} {α : Type}

/-- Only what is in bounds is read. -/
def Finds (c : SourceTables) (k : NodeKind) (read : MIRRef → Except Mir.ArenaError α) : Prop :=
  ∀ i v, read (some i) = .ok v → Mir.checkRef c (k, i) = true

theorem readRef_finds {nil : α} {read : Mir.MIRRow sourceScalars k → Except Mir.ArenaError α} :
    Finds c k (Mir.readRef c k nil read) := by
  intro i v hread
  rw [Mir.readRef] at hread
  cases hrow : c.row (k, i) with
  | none =>
    rw [hrow] at hread
    cases hread
  | some row => exact decide_eq_true (List.getElem?_eq_some_iff.mp hrow).1

theorem readExpression_finds (fuel : Nat) : Finds c .expression (readExpression c fuel) := by
  cases fuel with
  | zero => intro i v hread; cases hread
  | succ fuel =>
    intro i v hread
    exact readRef_finds i v hread

theorem readStatement_finds (fuel : Nat) : Finds c .statement (readStatement c fuel) := by
  cases fuel with
  | zero => intro i v hread; cases hread
  | succ fuel =>
    intro i v hread
    exact readRef_finds i v hread

theorem readFunction_finds (fuel : Nat) : Finds c .function (readFunction c fuel) := by
  cases fuel with
  | zero => intro i v hread; cases hread
  | succ fuel =>
    intro i v hread
    rw [readFunction] at hread
    exact readRef_finds i v hread

variable {read : MIRRef → Except Mir.ArenaError α}

theorem Finds.optional (h : Finds c k read) {ref : MIRRef} {v : α} (hread : read ref = .ok v) :
    (Address.optional k ref).all (Mir.checkRef c) = true := by
  cases ref with
  | none => rfl
  | some i => simpa [Address.optional] using h i v hread

theorem optional_checked {read : Nat → MIRRef → Except Mir.ArenaError α}
    (h : ∀ fuel, Finds c k (read fuel)) {ref : MIRRef} {v : α}
    (hread : ∀ᶠ fuel in atTop, read fuel ref = .ok v) :
    (Address.optional k ref).all (Mir.checkRef c) = true := by
  obtain ⟨fuel, hread⟩ := hread.exists
  exact (h fuel).optional hread

theorem mapM_finds (h : Finds c k read) {indexes : List Nat} {vs : List α}
    (hread : indexes.mapM (fun i => read (some i)) = .ok vs) :
    indexes.all (fun i => Mir.checkRef c (k, i)) = true := by
  induction indexes generalizing vs with
  | nil => rfl
  | cons i indexes ih =>
    rw [mapM_cons] at hread
    cases hfirst : read (some i) with
    | error e =>
      rw [hfirst] at hread
      cases hread
    | ok v =>
      cases hrest : indexes.mapM (fun i => read (some i)) with
      | error e =>
        rw [hfirst, hrest] at hread
        cases hread
      | ok vs' => rw [all_cons, h i v hfirst, ih hrest, Bool.and_self]

theorem list_checked {read : Nat → MIRRef → Except Mir.ArenaError α}
    (h : ∀ fuel, Finds c k (read fuel)) {list : Mir.MIRNodeRefList} {vs : List α}
    (hread : ListReads c k read list vs) : Mir.checkList c k list = true := by
  obtain ⟨indexes, hcontents⟩ := Option.isSome_iff_exists.mp hread.1
  obtain ⟨fuel, hread⟩ := hread.2.exists
  rw [readList, Mir.indexList, hcontents] at hread
  rw [Mir.checkList, hcontents]
  exact mapM_finds (h fuel) hread

end Checks

/-! ## Rows and references -/

section Rows

variable {builder : ArenaBuilder} {adds : Bool}

theorem tables_ext {s t : SourceTables} (hrows : ∀ k, s.rows k = t.rows k)
    (hrefs : ∀ k, s.refs k = t.refs k) : s = t :=
  Store.ext (funext hrows) (funext hrefs)

variable (indexes : List Nat)

theorem addExpressionRefs_lowers :
    Lowers (addExpressionRefs indexes) false
      fun list c => c.contents .expression list.range = some indexes := by
  refine Lowers.refs (fun _ => rfl) (fun a => tables_ext (fun _ => rfl) ?_) fun _ => rfl
  intro k
  cases k <;> rfl

theorem addStatementRefs_lowers :
    Lowers (addStatementRefs indexes) false
      fun list c => c.contents .statement list.range = some indexes := by
  refine Lowers.refs (fun _ => rfl) (fun a => tables_ext (fun _ => rfl) ?_) fun _ => rfl
  intro k
  cases k <;> rfl

theorem addFunctionRefs_lowers :
    Lowers (addFunctionRefs indexes) false
      fun list c => c.contents .function list.range = some indexes := by
  refine Lowers.refs (fun _ => rfl) (fun a => tables_ext (fun _ => rfl) ?_) fun _ => rfl
  intro k
  cases k <;> rfl

theorem addParameterRefs_lowers :
    Lowers (addParameterRefs indexes) false
      fun list c => c.contents .parameter list.range = some indexes := by
  refine Lowers.refs (fun _ => rfl) (fun a => tables_ext (fun _ => rfl) ?_) fun _ => rfl
  intro k
  cases k <;> rfl

theorem addCaptureRefs_lowers :
    Lowers (addCaptureRefs indexes) false
      fun list c => c.contents .capture list.range = some indexes := by
  refine Lowers.refs (fun _ => rfl) (fun a => tables_ext (fun _ => rfl) ?_) fun _ => rfl
  intro k
  cases k <;> rfl

theorem addArmRefs_lowers :
    Lowers (addArmRefs indexes) false
      fun list c => c.contents .arm list.range = some indexes := by
  refine Lowers.refs (fun _ => rfl) (fun a => tables_ext (fun _ => rfl) ?_) fun _ => rfl
  intro k
  cases k <;> rfl

theorem addBinding_lowers (b : KIRBinding) :
    Lowers (addBinding b) false fun ref c => readBinding c ref = .ok (some b) := by
  apply LowersAfter.lowers
  refine LowersAfter.leaf .binding b (by decide) ?_ (fun _ => rfl) (fun _ _ => rfl) ?_
  · intro a
    refine tables_ext ?_ fun _ => rfl
    intro k
    cases k <;> rfl
  · intro a c _ hrow
    exact Mir.readRef_row hrow

theorem exprRow_wraps (value : KIRExpr) (edges : BuildM MIRExpression) :
    Wraps .expression (exprRow value edges) edges (fun t => { t with value := value }.row)
      (fun a => { a with expressions := a.expressions ++ [{ value := value }] })
      fun i t a => { a with expressions := a.expressions.set i { t with value := value } } where
  run a := by
    simp only [tablesOf, length_map]
    rfl
  place a := by
    refine ⟨MIRExpression.row { value := value }, tables_ext ?_ fun _ => rfl⟩
    intro k
    cases k <;> simp [tablesOf, Store.place]
  complete i t a := by
    refine tables_ext ?_ fun _ => rfl
    intro k
    cases k <;> simp [tablesOf, Store.complete, map_set]
  top _ := rfl
  top_complete _ _ _ := rfl

theorem stmtRow_wraps (value : KIRStmt) (edges : BuildM MIRStatement) :
    Wraps .statement (stmtRow value edges) edges (fun t => { t with value := value }.row)
      (fun a => { a with statements := a.statements ++ [{ value := value }] })
      fun i t a => { a with statements := a.statements.set i { t with value := value } } where
  run a := by
    simp only [tablesOf, length_map]
    rfl
  place a := by
    refine ⟨MIRStatement.row { value := value }, tables_ext ?_ fun _ => rfl⟩
    intro k
    cases k <;> simp [tablesOf, Store.place]
  complete i t a := by
    refine tables_ext ?_ fun _ => rfl
    intro k
    cases k <;> simp [tablesOf, Store.complete, map_set]
  top _ := rfl
  top_complete _ _ _ := rfl

/-- The row of an arm. -/
def armRow (builder : ArenaBuilder) (p : Pattern) (edges : Nat × MIRNodeRefList) : MIRArm where
  source := builder.paths p.tok.source
  line := p.tok.line
  column := p.tok.column
  pattern := some edges.1
  body := edges.2

def armEdges (builder : ArenaBuilder) (p : Pattern) (body : BuildM (List Nat)) :
    BuildM (Nat × MIRNodeRefList) := do
  let pattern ← addPattern builder p
  let indexes ← body
  let refs ← addStatementRefs indexes
  return (pattern, refs)

theorem addArm_wraps (p : Pattern) (body : BuildM (List Nat)) :
    Wraps .arm (addArm builder p body) (armEdges builder p body) (fun t => (armRow builder p t).row)
      (fun a => { a with arms := a.arms ++ [{}] })
      fun i t a => { a with arms := a.arms.set i (armRow builder p t) } where
  run a := by
    simp only [tablesOf, length_map]
    rfl
  place a := by
    refine ⟨MIRArm.row {}, tables_ext ?_ fun _ => rfl⟩
    intro k
    cases k <;> simp [tablesOf, Store.place]
  complete i t a := by
    refine tables_ext ?_ fun _ => rfl
    intro k
    cases k <;> simp [tablesOf, Store.complete, map_set]
  top _ := rfl
  top_complete _ _ _ := rfl

/-- The lists of the row of a function: its body, its parameters and its captures. -/
def functionEdges (builder : ArenaBuilder) (params body : BuildM (List Nat))
    (captures : List Capture) : BuildM (MIRNodeRefList × MIRNodeRefList × MIRNodeRefList) := do
  let params ← params
  let body ← body
  let captures ← addCaptures builder (captures.mergeSort (captureBefore builder))
  let body ← addStatementRefs body
  let params ← addParameterRefs params
  let captures ← addCaptureRefs captures
  return (body, params, captures)

def functionRow (value : KIRFunction)
    (edges : MIRNodeRefList × MIRNodeRefList × MIRNodeRefList) : MIRFunction where
  value := value
  body := edges.1
  params := edges.2.1
  captures := edges.2.2

theorem addFunction_wraps (value : KIRFunction) (params body : BuildM (List Nat))
    (captures : List Capture) :
    Wraps .function (addFunction builder value params body captures)
      (functionEdges builder params body captures) (fun t => (functionRow value t).row)
      (fun a => { a with functions := a.functions ++ [{ value := value }] })
      fun i t a => { a with functions := a.functions.set i (functionRow value t) } where
  run a := by
    simp only [tablesOf, length_map]
    rfl
  place a := by
    refine ⟨MIRFunction.row { value := value }, tables_ext ?_ fun _ => rfl⟩
    intro k
    cases k <;> simp [tablesOf, Store.place]
  complete i t a := by
    refine tables_ext ?_ fun _ => rfl
    intro k
    cases k <;> simp [tablesOf, Store.complete, map_set]
  top _ := rfl
  top_complete _ _ _ := rfl

/-! ## Patterns, captures and parameters -/

/-- The row of a pattern. -/
def patternRow (builder : ArenaBuilder) (p : Pattern) (binding : MIRRef) :
    Mir.MIRPattern sourceScalars where
  value := (kirPattern builder p).value
  binding := binding

theorem addPattern_lowers (p : Pattern) :
    Lowers (addPattern builder p) false
      fun i c => readPattern c (some i) = .ok (some (kirPattern builder p)) := by
  -- The row comes last, whether or not the pattern binds a name.
  have hrow : ∀ ref, LowersAfter false
      (fun c => True ∧ readBinding c ref = .ok (kirPattern builder p).resolvedBinding)
      (modifyGet fun a : KIRArena => (a.patterns.length, { a with patterns := a.patterns ++
        [{ kind := p.kind, source := builder.paths p.tok.source, line := p.tok.line
           column := p.tok.column, bindingName := p.binding, binding := ref }] }))
      false fun i c => readPattern c (some i) = .ok (some (kirPattern builder p)) := by
    intro ref
    refine LowersAfter.leaf .pattern (patternRow builder p ref) (by decide) ?_ (fun _ => rfl) ?_ ?_
    · intro a
      refine tables_ext ?_ fun _ => rfl
      intro k
      cases k <;> simp [tablesOf, Store.place, modifyGet, MonadStateOf.modifyGet,
        StateT.modifyGet, pure, patternRow, kirPattern, MIRPattern.row]
    · rintro c ⟨-, hread⟩
      exact Bool.and_eq_true_iff.mpr ⟨readRef_finds.optional hread, rfl⟩
    · rintro a c ⟨-, hread⟩ hrow
      have hlength : ((tablesOf a).rows .pattern).length = a.patterns.length := length_map _
      rw [hlength] at hrow
      show readPattern c (some a.patterns.length) = _
      rw [Mir.readPattern, Mir.readRef_row hrow]
      show (do let binding ← readBinding c ref; _) = _
      rw [hread]
      rfl
  apply LowersAfter.lowers
  unfold addPattern
  by_cases hname : (p.binding != "") = true
  · rw [if_pos hname]
    refine (addBinding_lowers _).bind fun ref => ?_
    have hafter := hrow ref
    simp only [kirPattern, if_pos hname] at hafter ⊢
    exact hafter
  · rw [if_neg hname]
    refine (Lowers.pure (F := fun ref c =>
      readBinding c ref = .ok (kirPattern builder p).resolvedBinding) none ?_).bind hrow
    intro c
    simp only [kirPattern, if_neg hname]
    rfl

theorem addCaptures_lowers (captures : List Capture) :
    Lowers (addCaptures builder captures) false
      fun indexes c => indexes.mapM (fun i => readCapture c (some i)) =
        .ok (captures.map fun capture => some (kirCapture builder capture)) := by
  induction captures with
  | nil => exact Lowers.pure [] fun _ => rfl
  | cons capture captures ih =>
    apply LowersAfter.lowers
    refine (addBinding_lowers _).bind fun ref => ?_
    have hcapture : LowersAfter (false || false)
        (fun c => True ∧ readBinding c ref = .ok (some (kirBinding builder.paths capture.name
          capture.type.text capture.mutable capture.token)))
        (modifyGet fun a : KIRArena =>
          (a.captures.length, { a with captures := a.captures ++ [{ binding := ref }] }))
        false fun i c => readCapture c (some i) = .ok (some (kirCapture builder capture)) := by
      refine LowersAfter.leaf .capture (MIRCapture.row { binding := ref }) (by decide) ?_
        (fun _ => rfl) ?_ ?_
      · intro a
        refine tables_ext ?_ fun _ => rfl
        intro k
        cases k <;> simp [tablesOf, Store.place, modifyGet, MonadStateOf.modifyGet,
          StateT.modifyGet, pure]
      · rintro c ⟨-, hread⟩
        exact Bool.and_eq_true_iff.mpr ⟨readRef_finds.optional hread, rfl⟩
      · rintro a c ⟨-, hread⟩ hrow
        have hlength : ((tablesOf a).rows .capture).length = a.captures.length := length_map _
        rw [hlength] at hrow
        show readCapture c (some a.captures.length) = _
        rw [Mir.readCapture, Mir.readRef_row hrow]
        show (do let binding ← readBinding c ref; _) = _
        rw [hread]
        rfl
    refine hcapture.bind fun i => ih.bind fun indexes => LowersAfter.pure _ rfl ?_
    rintro c ⟨⟨-, hread⟩, hrest⟩
    exact Mir.mapM_cons_ok hread hrest

/-- The row of a parameter. -/
def parameterRow (builder : ArenaBuilder) (p : ParamSig) (default binding : MIRRef) :
    Mir.MIRParameter sourceScalars where
  value := paramScalars builder p
  default := default
  binding := binding

theorem addParameter_puts (p : ParamSig) (default : BuildM MIRRef) {a : KIRArena}
    {new : List (Address NodeKind)} {P : SourceTables → Prop}
    (h : Puts a (default a).2 new P)
    (hcheck : ∀ c, P c →
      (Address.optional NodeKind.expression (default a).1).all (Mir.checkRef c) = true) :
    ∃ j, Puts a (addParameter builder p default a).2
      (new ++ [(NodeKind.binding, j), (NodeKind.parameter, (default a).2.parameters.length)])
      fun c => P c ∧
        RowsChecked c [(.binding, j), (.parameter, (default a).2.parameters.length)] ∧
        ∃ ref, c.row (.parameter, (default a).2.parameters.length) =
          some (parameterRow builder p (default a).1 ref) ∧
            readBinding c ref = .ok (some (paramBinding builder p)) := by
  have hbinding := Places.leaf (tablesOf (default a).2) NodeKind.binding (paramBinding builder p)
  have hrow := Places.leaf ((tablesOf (default a).2).place .binding (paramBinding builder p))
    NodeKind.parameter (parameterRow builder p (default a).1
      (some ((tablesOf (default a).2).rows .binding).length))
  have hlength : (((tablesOf (default a).2).place .binding (paramBinding builder p)).rows
      .parameter).length = (default a).2.parameters.length := by
    simp [Store.place, tablesOf]
  rw [hlength] at hrow
  have htables : tablesOf (addParameter builder p default a).2 =
      ((tablesOf (default a).2).place .binding (paramBinding builder p)).place .parameter
        (parameterRow builder p (default a).1
          (some ((tablesOf (default a).2).rows .binding).length)) := by
    have hrun : addParameter builder p default a = (a.parameters.length,
        { (default a).2 with
          bindings := (default a).2.bindings ++ [paramBinding builder p]
          parameters := (default a).2.parameters ++
            [{ name := p.name, type := p.type.text, source := builder.paths p.tok.source
               line := p.tok.line, column := p.tok.column, default := (default a).1
               binding := some (default a).2.bindings.length }] }) := rfl
    rw [hrun]
    refine tables_ext ?_ fun _ => rfl
    intro k
    cases k <;> simp [tablesOf, Store.place, parameterRow, paramScalars, MIRParameter.row]
  refine ⟨((tablesOf (default a).2).rows .binding).length, h.top, ?_⟩
  rw [htables]
  refine (h.places.trans (hbinding.trans hrow)).mono ?_
  rintro c ⟨hP, hrow, hparameter⟩
  have hread : readBinding c (some ((tablesOf (default a).2).rows .binding).length) =
      .ok (some (paramBinding builder p)) := Mir.readRef_row hrow
  refine ⟨hP, ?_, _, hparameter, hread⟩
  refine RowsChecked.cons hrow rfl (RowsChecked.cons hparameter ?_ (RowsChecked.nil c))
  simp only [Mir.checkRow, Mir.rowEdges, parameterRow, all_append, hcheck c hP,
    readRef_finds.optional hread, Bool.and_self, all_nil]

theorem addParameters_lowers (ps : List ParamSig) :
    Lowers (addParameters builder ps) (!ps.isEmpty)
      fun indexes c => ∀ᶠ fuel in atTop,
        indexes.mapM (fun i => readParameter c (readExpression c fuel) (some i)) =
          .ok (ps.map fun p => kirParam builder p .nil) := by
  induction ps with
  | nil => exact Lowers.pure [] fun _ => Filter.Eventually.of_forall fun _ => rfl
  | cons p ps ih =>
    have hfirst : Lowers (addParameter builder p (pure none)) true
        fun i c => ∀ᶠ fuel in atTop,
          readParameter c (readExpression c fuel) (some i) = .ok (kirParam builder p .nil) := by
      intro a
      obtain ⟨j, hputs⟩ := @addParameter_puts builder p (pure none) a [] _ (Puts.nil a)
        fun _ _ => rfl
      refine ⟨_, hputs.mono ?_⟩
      rintro c ⟨-, hchecked, ref, hrow, hbinding⟩
      change c.row (.parameter, a.parameters.length) = _ at hrow
      refine ⟨⟨hchecked, ?_, ?_⟩, ?_⟩
      · intro i row hmem hrow'
        simp only [nil_append, mem_cons, Prod.mk.injEq, reduceCtorEq, false_and,
          true_and, not_mem_nil, or_false, false_or] at hmem
        subst hmem
        obtain rfl := Option.some.inj (hrow.symm.trans hrow')
        rfl
      · simp
      · apply Mir.eventually_succ
        refine Filter.Eventually.of_forall fun fuel => ?_
        show readParameter c _ (some a.parameters.length) = _
        rw [readParameter, Mir.readRef_row hrow]
        show (do let binding ← readBinding c ref; _) = _
        rw [hbinding]
        rfl
    apply LowersAfter.lowers
    refine hfirst.bind fun i => ih.bind fun indexes => LowersAfter.pure _ rfl ?_
    rintro c ⟨⟨-, hread⟩, hrest⟩
    filter_upwards [hread, hrest] with fuel hread hrest
    exact Mir.mapM_cons_ok hread hrest

/-! ## Children -/

/-- The references of a row, other than its lists, read back as children of an expression. -/
structure EdgesRead (c : SourceTables) (row : MIRExpression) (children : ExprChildren) : Prop where
  left : ∀ᶠ fuel in atTop, readExpression c fuel row.left = .ok children.left
  right : ∀ᶠ fuel in atTop, readExpression c fuel row.right = .ok children.right
  operand : ∀ᶠ fuel in atTop, readExpression c fuel row.operand = .ok children.operand
  base : ∀ᶠ fuel in atTop, readExpression c fuel row.base = .ok children.base
  receiver : ∀ᶠ fuel in atTop, readExpression c fuel row.receiver = .ok children.receiver
  callee : ∀ᶠ fuel in atTop, readExpression c fuel row.callee = .ok children.callee
  lambda : ∀ᶠ fuel in atTop, readFunction c fuel row.lambda = .ok children.lambda
  binding : readBinding c row.binding = .ok children.binding

/-- The lists of a row read back as children of an expression. -/
structure ListsRead (c : SourceTables) (row : MIRExpression) (children : ExprChildren) : Prop where
  args : ListReads c .expression (readExpression c) row.args.range children.args
  items : ListReads c .expression (readExpression c) row.items.range children.items
  mapKeys : ListReads c .expression (readExpression c) row.mapKeys.range children.mapKeys
  values : ListReads c .expression (readExpression c) row.values.range children.values

theorem reads_nil (c : SourceTables) :
    ∀ᶠ fuel in atTop, readExpression c fuel none = .ok .nil :=
  Mir.eventually_succ (Filter.Eventually.of_forall fun _ => rfl)

theorem reads_no_function (c : SourceTables) :
    ∀ᶠ fuel in atTop, readFunction c fuel none = .ok .nil :=
  Mir.eventually_succ (Filter.Eventually.of_forall fun _ => rfl)

variable {children : ExprChildren}

theorem edgesRead_none (c : SourceTables)
    (h : children =
    { args := children.args, items := children.items, mapKeys := children.mapKeys
      values := children.values }) : EdgesRead c {} children := by
  rw [h]
  exact ⟨reads_nil c, reads_nil c, reads_nil c, reads_nil c, reads_nil c, reads_nil c,
    reads_no_function c, rfl⟩

/-- Some references that are read as expressions. -/
def ExprsRead (c : SourceTables) (indexes : List Nat)
    (expressions : List (Mir.KIRExpr sourceScalars)) : Prop :=
  ∀ᶠ fuel in atTop, indexes.mapM (fun i => readExpression c fuel (some i)) = .ok expressions

theorem exprsRead_nil (c : SourceTables) : ExprsRead c [] [] :=
  Filter.Eventually.of_forall fun _ => rfl

theorem exprLists_lowers (row : MIRExpression) (args items keys values : List Nat) :
    Lowers (exprLists row args items keys values) false fun row' c => ∀ children,
      EdgesRead c row children → ExprsRead c args children.args →
        ExprsRead c items children.items → ExprsRead c keys children.mapKeys →
          ExprsRead c values children.values →
            EdgesRead c row' children ∧ ListsRead c row' children := by
  apply LowersAfter.lowers
  refine (addExpressionRefs_lowers args).bind fun argList => ?_
  refine (addExpressionRefs_lowers items).bind fun itemList => ?_
  refine (addExpressionRefs_lowers keys).bind fun keyList => ?_
  refine (addExpressionRefs_lowers values).bind fun valueList => LowersAfter.pure _ rfl ?_
  rintro c ⟨⟨⟨⟨-, hargs⟩, hitems⟩, hkeys⟩, hvalues⟩ children hedges hargs' hitems' hkeys' hvalues'
  exact ⟨⟨hedges.left, hedges.right, hedges.operand, hedges.base, hedges.receiver, hedges.callee,
      hedges.lambda, hedges.binding⟩,
    ⟨Mir.listReads_of_listed ⟨_, hargs, hargs'⟩, Mir.listReads_of_listed ⟨_, hitems, hitems'⟩,
      Mir.listReads_of_listed ⟨_, hkeys, hkeys'⟩, Mir.listReads_of_listed ⟨_, hvalues, hvalues'⟩⟩⟩

theorem exprLists_last (row : MIRExpression) {args items keys values : List Nat} {before : Bool}
    {G : SourceTables → Prop} (children : ExprChildren)
    (hedges : ∀ c, G c → EdgesRead c row children)
    (hargs : ∀ c, G c → ExprsRead c args children.args)
    (hitems : ∀ c, G c → ExprsRead c items children.items)
    (hkeys : ∀ c, G c → ExprsRead c keys children.mapKeys)
    (hvalues : ∀ c, G c → ExprsRead c values children.values) :
    LowersAfter before G (exprLists row args items keys values) before
      fun row' c => EdgesRead c row' children ∧ ListsRead c row' children := by
  refine (exprLists_lowers row args items keys values).last (Bool.or_false before) ?_
  intro row' c hG hread
  exact hread children (hedges c hG) (hargs c hG) (hitems c hG) (hkeys c hG) (hvalues c hG)

theorem exprLists_none (row : MIRExpression) {before : Bool} {G : SourceTables → Prop}
    (children : ExprChildren)
    (hlists : children = { children with args := [], items := [], mapKeys := [], values := [] })
    (hedges : ∀ c, G c → EdgesRead c row children) :
    LowersAfter before G (exprLists row [] [] [] []) before
      fun row' c => EdgesRead c row' children ∧ ListsRead c row' children := by
  refine exprLists_last row children hedges ?_ ?_ ?_ ?_ <;> intro c _ <;> rw [hlists] <;>
    exact exprsRead_nil c

theorem exprRow_checked {c : SourceTables} {row : MIRExpression} (value : KIRExpr)
    (h : EdgesRead c row children ∧ ListsRead c row children) :
    Mir.checkRow c .expression { row with value := value }.row = true := by
  obtain ⟨hedges, hlists⟩ := h
  simp only [Mir.checkRow, Mir.rowEdges, MIRExpression.row, all_append, all_cons,
    all_nil, optional_checked readExpression_finds hedges.left,
    optional_checked readExpression_finds hedges.right,
    optional_checked readExpression_finds hedges.operand,
    optional_checked readExpression_finds hedges.base,
    optional_checked readExpression_finds hedges.receiver,
    optional_checked readExpression_finds hedges.callee,
    optional_checked readFunction_finds hedges.lambda, readRef_finds.optional hedges.binding,
    list_checked readExpression_finds hlists.args, list_checked readExpression_finds hlists.items,
    list_checked readExpression_finds hlists.mapKeys,
    list_checked readExpression_finds hlists.values, Bool.and_self]
  rfl

theorem reads_exprNode {c : SourceTables} {e : Expr} {i : Nat} {row : MIRExpression}
    (hrow : c.row (.expression, i) = some { row with value := kirExprScalars builder e }.row)
    (hedges : EdgesRead c row children) (hlists : ListsRead c row children) :
    ∀ᶠ fuel in atTop, readExpression c fuel (some i) = .ok (exprNode builder e children) := by
  apply Mir.eventually_succ
  filter_upwards [hedges.left, hedges.right, hedges.operand, hedges.base, hedges.receiver,
    hedges.callee, hedges.lambda, hlists.args.2, hlists.items.2, hlists.mapKeys.2,
    hlists.values.2, Mir.eventually_succ (P := fun fuel => Mir.readValue c fuel none = .ok .nil)
      (Filter.Eventually.of_forall fun _ => rfl)] with fuel hleft hright hoperand hbase hreceiver
    hcallee hlambda hargs hitems hkeys hvalues hconst
  rw [readExpression, Mir.readRef_row hrow]
  simp only [MIRExpression.row]
  rw [hleft, hright, hoperand, hbase, hreceiver, hcallee, hlambda, hedges.binding, hconst, hargs,
    hitems, hkeys, hvalues]
  rfl

/-- The references of a row, other than its lists, read back as children of a statement. -/
structure StmtEdgesRead (c : SourceTables) (row : MIRStatement) (children : StmtChildren) :
    Prop where
  binding : readBinding c row.binding = .ok children.binding
  init : ∀ᶠ fuel in atTop, readExpression c fuel row.init = .ok children.init
  expr : ∀ᶠ fuel in atTop, readExpression c fuel row.expr = .ok children.expr
  target : ∀ᶠ fuel in atTop, readExpression c fuel row.target = .ok children.target
  valueExpr : ∀ᶠ fuel in atTop, readExpression c fuel row.valueExpr = .ok children.valueExpr
  cond : ∀ᶠ fuel in atTop, readExpression c fuel row.cond = .ok children.cond
  iter : ∀ᶠ fuel in atTop, readExpression c fuel row.iter = .ok children.iter
  ret : ∀ᶠ fuel in atTop, readExpression c fuel row.ret = .ok children.ret
  scrutinee : ∀ᶠ fuel in atTop, readExpression c fuel row.scrutinee = .ok children.scrutinee

/-- The blocks of a row read back as those of a statement. -/
structure BlocksRead (c : SourceTables) (row : MIRStatement) (children : StmtChildren) :
    Prop where
  thenBody : ListReads c .statement (readStatement c) row.thenList.range children.thenBody
  elseBody : ListReads c .statement (readStatement c) row.elseList.range children.elseBody
  body : ListReads c .statement (readStatement c) row.body.range children.body

/-- A row reads back as a statement with some children. -/
structure StmtRead (c : SourceTables) (row : MIRStatement) (children : StmtChildren) : Prop where
  edges : StmtEdgesRead c row children
  blocks : BlocksRead c row children
  arms : ListReads c .arm (fun fuel => readArm c (readStatement c fuel)) row.arms.range
    children.arms

/-- Some references that are read as statements. -/
def StmtsRead (c : SourceTables) (indexes : List Nat)
    (statements : List (Mir.KIRStmt sourceScalars)) : Prop :=
  ∀ᶠ fuel in atTop, indexes.mapM (fun i => readStatement c fuel (some i)) = .ok statements

/-- Some references that are read as arms. -/
def ArmsRead (c : SourceTables) (indexes : List Nat) (arms : List (Mir.KIRArm sourceScalars)) :
    Prop :=
  ∀ᶠ fuel in atTop, indexes.mapM (fun i => readArm c (readStatement c fuel) (some i)) = .ok arms

theorem noStatements_lowers :
    Lowers (pure [] : BuildM (List Nat)) false fun indexes c => StmtsRead c indexes [] :=
  Lowers.pure [] fun _ => Filter.Eventually.of_forall fun _ => rfl

section Blocks

variable {thenProgram elseProgram bodyProgram : BuildM (List Nat)} {adds₁ adds₂ adds₃ : Bool}
  {thenBody elseBody body : List (Mir.KIRStmt sourceScalars)}

theorem stmtLists_lowers (row : MIRStatement)
    (hthen : Lowers thenProgram adds₁ fun indexes c => StmtsRead c indexes thenBody)
    (helse : Lowers elseProgram adds₂ fun indexes c => StmtsRead c indexes elseBody)
    (hbody : Lowers bodyProgram adds₃ fun indexes c => StmtsRead c indexes body) :
    Lowers (stmtLists row thenProgram elseProgram bodyProgram) (adds₁ || adds₂ || adds₃)
      fun row' c => ∀ children : StmtChildren, StmtEdgesRead c row children →
        children.thenBody = thenBody → children.elseBody = elseBody → children.body = body →
          StmtEdgesRead c row' children ∧ BlocksRead c row' children := by
  apply LowersAfter.lowers
  refine hthen.bind fun thenIndexes => ?_
  refine (addStatementRefs_lowers thenIndexes).bind fun thenList => ?_
  refine helse.bind fun elseIndexes => ?_
  refine (addStatementRefs_lowers elseIndexes).bind fun elseList => ?_
  refine hbody.bind fun bodyIndexes => ?_
  refine (addStatementRefs_lowers bodyIndexes).bind fun bodyList => ?_
  refine LowersAfter.pure _ (by simp) ?_
  rintro c ⟨⟨⟨⟨⟨⟨-, hthen⟩, hthenList⟩, helse⟩, helseList⟩, hbody⟩, hbodyList⟩
  rintro children hedges rfl rfl rfl
  exact ⟨⟨hedges.binding, hedges.init, hedges.expr, hedges.target, hedges.valueExpr, hedges.cond,
      hedges.iter, hedges.ret, hedges.scrutinee⟩,
    ⟨Mir.listReads_of_listed ⟨_, hthenList, hthen⟩, Mir.listReads_of_listed ⟨_, helseList, helse⟩,
      Mir.listReads_of_listed ⟨_, hbodyList, hbody⟩⟩⟩

theorem stmtLists_last (row : MIRStatement) {children : StmtChildren} {before adds' : Bool}
    {G : SourceTables → Prop}
    (hthen : Lowers thenProgram adds₁ fun indexes c => StmtsRead c indexes children.thenBody)
    (helse : Lowers elseProgram adds₂ fun indexes c => StmtsRead c indexes children.elseBody)
    (hbody : Lowers bodyProgram adds₃ fun indexes c => StmtsRead c indexes children.body)
    (harms : children.arms = []) (hadds : (before || (adds₁ || adds₂ || adds₃)) = adds')
    (hG : ∀ c, G c → StmtEdgesRead c row children) :
    LowersAfter before G (do
      let row ← stmtLists row thenProgram elseProgram bodyProgram
      stmtArms row []) adds' fun row c => StmtRead c row children := by
  refine (stmtLists_lowers row hthen helse hbody).bind fun row' => ?_
  refine (addArmRefs_lowers []).bind fun armList => LowersAfter.pure _ (by simpa using hadds) ?_
  rintro c ⟨⟨hold, hread⟩, hlist⟩
  obtain ⟨hedges, hblocks⟩ := hread children (hG c hold) rfl rfl rfl
  refine ⟨⟨hedges.binding, hedges.init, hedges.expr, hedges.target, hedges.valueExpr, hedges.cond,
    hedges.iter, hedges.ret, hedges.scrutinee⟩, ⟨hblocks.thenBody, hblocks.elseBody, hblocks.body⟩,
    ?_⟩
  have hread : ListReads c .arm (fun fuel => readArm c (readStatement c fuel)) armList.range [] :=
    Mir.listReads_of_listed ⟨[], hlist, Filter.Eventually.of_forall fun _ => rfl⟩
  rw [harms]
  exact hread

end Blocks

theorem stmtRow_checked {c : SourceTables} {row : MIRStatement} {children : StmtChildren}
    (value : KIRStmt) (h : StmtRead c row children) :
    Mir.checkRow c .statement { row with value := value }.row = true := by
  obtain ⟨hedges, hblocks, harms⟩ := h
  simp only [Mir.checkRow, Mir.rowEdges, MIRStatement.row, all_append, all_cons,
    all_nil, readRef_finds.optional hedges.binding,
    optional_checked readExpression_finds hedges.init,
    optional_checked readExpression_finds hedges.expr,
    optional_checked readExpression_finds hedges.target,
    optional_checked readExpression_finds hedges.valueExpr,
    optional_checked readExpression_finds hedges.cond,
    optional_checked readExpression_finds hedges.iter,
    optional_checked readExpression_finds hedges.ret,
    optional_checked readExpression_finds hedges.scrutinee,
    list_checked readStatement_finds hblocks.thenBody,
    list_checked readStatement_finds hblocks.elseBody,
    list_checked readStatement_finds hblocks.body, list_checked (fun _ => readRef_finds) harms,
    Bool.and_self]

theorem reads_stmtNode {c : SourceTables} {s : Stmt} {children : StmtChildren} {i : Nat}
    {row : MIRStatement}
    (hrow : c.row (.statement, i) = some { row with value := kirStmtScalars builder s }.row)
    (h : StmtRead c row children) :
    ∀ᶠ fuel in atTop, readStatement c fuel (some i) = .ok (stmtNode builder s children) := by
  obtain ⟨hedges, hblocks, harms⟩ := h
  apply Mir.eventually_succ
  filter_upwards [hedges.init, hedges.expr, hedges.target, hedges.valueExpr, hedges.cond,
    hedges.iter, hedges.ret, hedges.scrutinee, hblocks.thenBody.2, hblocks.elseBody.2,
    hblocks.body.2, harms.2] with fuel hinit hexpr htarget hvalue hcond hiter hret hscrutinee hthen
    helse hbody harms
  rw [readStatement, Mir.readRef_row hrow]
  simp only [MIRStatement.row]
  rw [hedges.binding, hinit, hexpr, htarget, hvalue, hcond, hiter, hret, hscrutinee, hthen, helse,
    hbody, harms]
  rfl

end Rows

end Kryndel
