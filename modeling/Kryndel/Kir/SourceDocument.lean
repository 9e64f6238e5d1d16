import Kryndel.Kir.SourceTree
import Kryndel.Checker.Captures

/-!
# The arena of a program

The arena that the builder makes of a program reads back as the tree form of the program, as
the arena that the tree form is flattened to does, unless the default of a parameter has a
closure with parameters. The parameters of that closure come first in the table, and the index
that was taken for the parameter of the function is that of the first of them.
-/

namespace Kryndel

open Tables List
open Filter (atTop)
open Mir (NodeKind readExpression readStatement readFunction readCapture readParameter ListReads)

/-! ## Programs for declared functions -/

/-- A program of the builder appends rows whose references are in bounds, so that `F` holds of
    its result. -/
def Stores {ρ : Type} (m : BuildM ρ) (F : ρ → SourceTables → Prop) : Prop :=
  ∀ a, ∃ new, Puts a (m a).2 new fun c => RowsChecked c new ∧ F (m a).1 c

/-- What holds after such a program that comes after others. -/
def StoresAfter {ρ : Type} (G : SourceTables → Prop) (m : BuildM ρ)
    (F : ρ → SourceTables → Prop) : Prop :=
  ∀ a, ∃ new, Puts a (m a).2 new fun c => G c → RowsChecked c new ∧ F (m a).1 c

section Rules

variable {ρ τ : Type} {m : BuildM ρ} {adds : Bool} {F : ρ → SourceTables → Prop}
  {G : SourceTables → Prop}

theorem Lowers.stores (h : Lowers m adds F) : Stores m F := by
  intro a
  obtain ⟨new, hputs⟩ := h a
  exact ⟨new, hputs.mono fun c hc => ⟨hc.1.checked, hc.2⟩⟩

theorem StoresAfter.stores (h : StoresAfter (fun _ => True) m F) : Stores m F := by
  intro a
  obtain ⟨new, hputs⟩ := h a
  exact ⟨new, hputs.mono fun c hc => hc trivial⟩

theorem Stores.bind {f : ρ → BuildM τ} {F' : τ → SourceTables → Prop} (hm : Stores m F)
    (hf : ∀ r, StoresAfter (fun c => G c ∧ F r c) (f r) F') : StoresAfter G (m >>= f) F' := by
  intro a
  obtain ⟨new, hputs⟩ := hm a
  obtain ⟨new', hputs'⟩ := hf (m a).1 (m a).2
  refine ⟨new ++ new', (hputs.trans hputs').mono ?_⟩
  intro c hc hG
  obtain ⟨hchecked, hF⟩ := hc.2 ⟨hG, hc.1.2⟩
  exact ⟨hc.1.1.append hchecked, hF⟩

theorem StoresAfter.pure (r : ρ) (h : ∀ c, G c → F r c) : StoresAfter G (pure r) F := by
  intro a
  refine ⟨[], (Puts.nil a).mono ?_⟩
  intro c _ hG
  exact ⟨RowsChecked.nil c, h c hG⟩

theorem Stores.last {F' : ρ → SourceTables → Prop} (hm : Stores m F)
    (h : ∀ r c, G c → F r c → F' r c) : StoresAfter G m F' := by
  intro a
  obtain ⟨new, hputs⟩ := hm a
  exact ⟨new, hputs.mono fun c hc hG => ⟨hc.1, h _ c hG hc.2⟩⟩

theorem Stores.row {k : NodeKind} {m : BuildM Nat} {edges : BuildM τ}
    {toRow : τ → Mir.MIRRow sourceScalars k} {place : KIRArena → KIRArena}
    {complete : Nat → τ → KIRArena → KIRArena} (hm : Wraps k m edges toRow place complete)
    {F : τ → SourceTables → Prop} (h : Stores edges F)
    (hcheck : ∀ t c, F t c → Mir.checkRow c k (toRow t) = true) :
    Stores m fun i c => ∃ t, c.row (k, i) = some (toRow t) ∧ F t c := by
  intro a
  obtain ⟨new, hputs⟩ := h (place a)
  refine ⟨_, (hm.puts hputs).mono ?_⟩
  intro c hc
  exact ⟨hc.2.1.cons hc.1 (hcheck _ c hc.2.2), _, hc.1, hc.2.2⟩

end Rules

/-! ## Parameters with defaults -/

variable {builder : ArenaBuilder}

/-- Lowering the default of a parameter appends parameters. -/
def Param.addsParameters (builder : ArenaBuilder) (p : Param) : Bool :=
  p.default.any fun e => e.addsParameters builder

/-- What is stored for a parameter: the parameter, or a parameter of its default. -/
structure ParamStored (builder : ArenaBuilder) (c : SourceTables) (i : Nat) (p : Param) :
    Prop where
  own : p.addsParameters builder = false → ∀ᶠ fuel in atTop,
    readParameter c (readExpression c fuel) (some i) =
      .ok (kirParam builder p.toParamSig (kirDefault builder p))
  other : p.addsParameters builder = true →
    ∃ row : Mir.MIRParameter sourceScalars, c.row (.parameter, i) = some row ∧ row.default = none

variable {i : Nat} {c : SourceTables}

theorem ParamStored.checked {p : Param} (h : ParamStored builder c i p) :
    Mir.checkRef c (NodeKind.parameter, i) = true := by
  cases hadds : p.addsParameters builder with
  | false =>
    obtain ⟨fuel, hread⟩ := (h.own hadds).exists
    exact readRef_finds i _ hread
  | true =>
    obtain ⟨row, hrow, -⟩ := h.other hadds
    exact decide_eq_true (List.getElem?_eq_some_iff.mp hrow).1

/-- The lowering of a default. -/
def addDefault (builder : ArenaBuilder) (p : Param) : BuildM MIRRef :=
  match p.default with
  | some e => some <$> addExpr builder e
  | none => pure none

theorem addDefault_lowers (p : Param) :
    Lowers (addDefault builder p) (p.addsParameters builder)
      fun ref c => ∀ᶠ fuel in atTop, readExpression c fuel ref = .ok (kirDefault builder p) := by
  cases hdefault : p.default with
  | none =>
    simp only [addDefault, Param.addsParameters, kirDefault, hdefault]
    exact Lowers.pure none reads_nil
  | some e =>
    simp only [addDefault, Param.addsParameters, kirDefault, hdefault]
    exact (exprRow_lowers (exprEdges_lowers e)).map fun i c hread => hread

section Positions

variable {a b : KIRArena} {new : List (Address NodeKind)}

theorem first_parameter (h : Adds (tablesOf a) (tablesOf b) new)
    (hany : ∃ i, (NodeKind.parameter, i) ∈ new) :
    (NodeKind.parameter, a.parameters.length) ∈ new := by
  obtain ⟨i, hi⟩ := hany
  rw [h.mem] at hi ⊢
  have hlength : ((tablesOf a).rows .parameter).length = a.parameters.length := length_map _
  omega

theorem parameters_length_eq (h : Adds (tablesOf a) (tablesOf b) new)
    (hnone : ¬∃ i, (NodeKind.parameter, i) ∈ new) :
    b.parameters.length = a.parameters.length := by
  have hle := h.length_le .parameter
  have hmem := h.mem .parameter a.parameters.length
  have hlength : ((tablesOf a).rows .parameter).length = a.parameters.length := length_map _
  have hlength' : ((tablesOf b).rows .parameter).length = b.parameters.length := length_map _
  rw [hlength, hlength'] at hle hmem
  by_contra hne
  exact hnone ⟨_, hmem.mpr ⟨Nat.le_refl _, by omega⟩⟩

end Positions

theorem addParameter_stores (p : Param) :
    Stores (addParameter builder p.toParamSig (addDefault builder p))
      fun i c => ParamStored builder c i p := by
  intro a
  obtain ⟨new, htop, hplaces⟩ := @addDefault_lowers builder p a
  obtain ⟨j, hputs⟩ := addParameter_puts p.toParamSig (addDefault builder p)
    ⟨htop, hplaces.present⟩ fun c hc => optional_checked readExpression_finds hc.1.2
  refine ⟨_, hputs.mono ?_⟩
  rintro c ⟨⟨⟨hadded, hdefault⟩, hpresent⟩, hchecked, ref, hrow, hbinding⟩
  refine ⟨hadded.checked.append hchecked, ?_, ?_⟩
  · -- Without parameters in the default, the index is that of the parameter's own row.
    intro hadds
    have hnone : ¬∃ i, (NodeKind.parameter, i) ∈ new := by
      rw [← hadded.any, hadds]
      exact Bool.false_ne_true
    rw [parameters_length_eq hplaces.adds hnone] at hrow
    filter_upwards [hdefault] with fuel hdefault
    show readParameter c _ (some a.parameters.length) = _
    rw [readParameter, Mir.readRef_row hrow]
    simp only [parameterRow]
    rw [hdefault, hbinding]
    rfl
  · -- Otherwise it is that of the first parameter of the default.
    intro hadds
    have hfirst := first_parameter hplaces.adds (hadded.any.mp hadds)
    obtain ⟨row, hrow⟩ := hpresent _ hfirst
    exact ⟨row, hrow, hadded.bare _ row hfirst hrow⟩

theorem addFunctionParameters_stores (params : List Param) :
    Stores (addFunctionParameters builder params)
      fun indexes c => List.Forall₂ (ParamStored builder c) indexes params := by
  induction params with
  | nil => exact (StoresAfter.pure [] fun _ _ => List.Forall₂.nil).stores
  | cons p params ih =>
    apply StoresAfter.stores
    refine (addParameter_stores p).bind fun i => ih.bind fun indexes => StoresAfter.pure _ ?_
    rintro c ⟨⟨-, hfirst⟩, hrest⟩
    exact List.Forall₂.cons hfirst hrest

/-! ## Declared functions -/

/-- The lists of the row of a declared function. -/
structure FunctionStored (builder : ArenaBuilder) (c : SourceTables) (f : Function)
    (edges : MIRNodeRefList × MIRNodeRefList × MIRNodeRefList) : Prop where
  body : ListReads c .statement (readStatement c) edges.1.range (kirStmts builder f.body)
  params : ∃ indexes, c.contents .parameter edges.2.1.range = some indexes ∧
    List.Forall₂ (ParamStored builder c) indexes f.params
  captures : ListReads c .capture (fun _ => readCapture c) edges.2.2.range []

theorem declaredEdges_stores (f : Function) :
    Stores (functionEdges builder (addFunctionParameters builder f.params)
      (stmtsRows builder f.body) []) fun edges c => FunctionStored builder c f edges := by
  apply StoresAfter.stores
  refine (addFunctionParameters_stores f.params).bind fun paramIndexes => ?_
  refine (stmtsRows_lowers f.body).stores.bind fun bodyIndexes => ?_
  refine (addCaptures_lowers _).stores.bind fun captureIndexes => ?_
  refine (addStatementRefs_lowers bodyIndexes).stores.bind fun bodyList => ?_
  refine (addParameterRefs_lowers paramIndexes).stores.bind fun paramList => ?_
  refine (addCaptureRefs_lowers captureIndexes).stores.bind fun captureList => ?_
  apply StoresAfter.pure
  rintro c ⟨⟨⟨⟨⟨⟨-, hparams⟩, hbody⟩, hcaptures⟩, hbodyList⟩, hparamList⟩, hcaptureList⟩
  rw [mergeSort_nil] at hcaptures
  exact ⟨Mir.listReads_of_listed ⟨_, hbodyList, hbody⟩, ⟨_, hparamList, hparams⟩,
    Mir.listReads_of_listed ⟨_, hcaptureList, Filter.Eventually.of_forall fun _ => hcaptures⟩⟩

variable {f : Function}

theorem declaredRow_checked {value : KIRFunction}
    {edges : MIRNodeRefList × MIRNodeRefList × MIRNodeRefList}
    (h : FunctionStored builder c f edges) :
    Mir.checkRow c .function (functionRow value edges).row = true := by
  have hparams : Mir.checkList c .parameter edges.2.1.range = true := by
    obtain ⟨indexes, hcontents, hstored⟩ := h.params
    rw [Mir.checkList, hcontents]
    have hboth := hstored.imp fun i p h => And.intro h.checked h
    exact all_eq_true.mpr ((forall₂_and_left _ _).mp hboth).1
  simp only [Mir.checkRow, Mir.rowEdges, functionRow, MIRFunction.row, all_cons, all_nil,
    list_checked readStatement_finds h.body, hparams,
    list_checked (fun _ => readRef_finds) h.captures, Bool.and_self]

/-- What is stored for a declared function. -/
def DeclaredStored (builder : ArenaBuilder) (c : SourceTables) (i : Nat) (f : Function) : Prop :=
  ∃ edges, c.row (.function, i) = some (functionRow (functionScalars builder f) edges).row ∧
    FunctionStored builder c f edges

theorem addFunctions_stores (functions : List Function) :
    Stores (addFunctions builder functions)
      fun indexes c => List.Forall₂ (DeclaredStored builder c) indexes functions := by
  induction functions with
  | nil => exact (StoresAfter.pure [] fun _ _ => List.Forall₂.nil).stores
  | cons f functions ih =>
    apply StoresAfter.stores
    have hrow : Stores (addFunction builder (functionScalars builder f)
        (addFunctionParameters builder f.params) (stmtsRows builder f.body) [])
        fun i c => DeclaredStored builder c i f :=
      Stores.row (addFunction_wraps _ _ _ _) (declaredEdges_stores f)
        fun edges c hstored => declaredRow_checked hstored
    refine hrow.bind fun i => ih.bind fun indexes => StoresAfter.pure _ ?_
    rintro c ⟨⟨-, hfirst⟩, hrest⟩
    exact List.Forall₂.cons hfirst hrest

/-! ## The arena -/

/-- What the arena of a program stores. -/
structure ArenaStored (builder : ArenaBuilder) (p : Program) (arena : Mir.KIRArena sourceScalars) :
    Prop where
  checked : ∀ kind, ∀ row ∈ arena.tables.rows kind, Mir.checkRow arena.tables kind row = true
  functions : ∃ indexes, arena.tables.contents .function arena.topFunctions = some indexes ∧
    List.Forall₂ (DeclaredStored builder arena.tables) indexes p.functions
  statements : ListReads arena.tables .statement (readStatement arena.tables) arena.topStatements
    (kirStmts builder p.statements)

/-- The list of the declared functions. -/
def addFunctionList (builder : ArenaBuilder) (functions : List Function) : BuildM MIRNodeRefList :=
  addFunctions builder functions >>= addFunctionRefs

/-- The list of the statements outside functions. -/
def addStatementList (builder : ArenaBuilder) (body : List Stmt) : BuildM MIRNodeRefList :=
  stmtsRows builder body >>= addStatementRefs

theorem addFunctionList_stores (functions : List Function) :
    Stores (addFunctionList builder functions) fun list c =>
      ∃ indexes, c.contents .function list.range = some indexes ∧
        List.Forall₂ (DeclaredStored builder c) indexes functions := by
  apply StoresAfter.stores
  refine (addFunctions_stores functions).bind fun indexes => ?_
  refine (addFunctionRefs_lowers indexes).stores.last ?_
  rintro list c ⟨-, hstored⟩ hcontents
  exact ⟨indexes, hcontents, hstored⟩

theorem addStatementList_stores (body : List Stmt) :
    Stores (addStatementList builder body) fun list c =>
      ListReads c .statement (readStatement c) list.range (kirStmts builder body) := by
  apply StoresAfter.stores
  refine (stmtsRows_lowers body).stores.bind fun indexes => ?_
  refine (addStatementRefs_lowers indexes).stores.last ?_
  rintro list c ⟨-, hread⟩ hcontents
  exact Mir.listReads_of_listed ⟨_, hcontents, hread⟩

theorem tablesOf_empty : tablesOf {} = Store.empty := by
  refine tables_ext ?_ ?_ <;> intro k <;> cases k <;> rfl

theorem sourceArena_stored (builder : ArenaBuilder) (p : Program) :
    ArenaStored builder p (sourceArena builder p) := by
  -- The functions come first, and the statements leave their list as it is.
  let top := addFunctionList builder p.functions {}
  let body := addStatementList builder p.statements { top.2 with topFunctions := top.1 }
  have hbuild : buildKIRArena builder p = { body.2 with topStatements := body.1 } := rfl
  obtain ⟨rows, -, hplaces⟩ := @addFunctionList_stores builder p.functions {}
  obtain ⟨rows', htop, hplaces'⟩ :=
    @addStatementList_stores builder p.statements { top.2 with topFunctions := top.1 }
  rw [tablesOf_empty] at hplaces
  obtain ⟨hadds, hholds⟩ := hplaces.trans hplaces'
  obtain ⟨⟨hchecked, indexes, hcontents, hstored⟩, hchecked', hread⟩ := hholds _ (Keeps.refl _ _)
  have hlist : (sourceArena builder p).topFunctions = top.1.range := by
    show (buildKIRArena builder p).topFunctions.range = _
    rw [hbuild]
    exact congrArg MIRNodeRefList.range htop
  refine ⟨?_, ⟨indexes, ?_, hstored⟩, hread⟩
  · intro kind row hrow
    obtain ⟨i, hi⟩ := mem_iff_getElem?.mp hrow
    have hmem : (kind, i) ∈ rows ++ rows' := by
      rw [hadds.mem]
      exact ⟨Nat.zero_le _, (List.getElem?_eq_some_iff.mp hi).1⟩
    exact hchecked.append hchecked' _ hmem row hi
  · rw [hlist]
    exact hcontents

section Reading

variable {p : Program} {arena : Mir.KIRArena sourceScalars}

theorem DeclaredStored.checked (h : DeclaredStored builder c i f) :
    Mir.checkRef c (NodeKind.function, i) = true := by
  obtain ⟨edges, hrow, -⟩ := h
  exact decide_eq_true (List.getElem?_eq_some_iff.mp hrow).1

theorem ArenaStored.valid (h : ArenaStored builder p arena) : arena.validateReferences = true := by
  have htop : Mir.checkList arena.tables .function arena.topFunctions = true := by
    obtain ⟨indexes, hcontents, hstored⟩ := h.functions
    rw [Mir.checkList, hcontents]
    have hboth := hstored.imp fun i f hf => And.intro hf.checked hf
    exact all_eq_true.mpr ((forall₂_and_left _ _).mp hboth).1
  rw [Mir.KIRArena.validateReferences, htop, list_checked readStatement_finds h.statements]
  simp only [Bool.and_self, Bool.true_and, all_eq_true]
  intro kind _ row hrow
  exact h.checked kind row hrow

theorem mapM_reads {α β γ : Type} {R : α → β → Prop} {good : β → Prop}
    {read : Nat → α → Except Mir.ArenaError γ} {tree : β → γ} {indexes : List α} {nodes : List β}
    (h : List.Forall₂ R indexes nodes) (hgood : ∀ node ∈ nodes, good node)
    (hread : ∀ i node, R i node → good node → ∀ᶠ fuel in atTop, read fuel i = .ok (tree node)) :
    ∀ᶠ fuel in atTop, indexes.mapM (read fuel) = .ok (nodes.map tree) := by
  induction h with
  | nil => exact Filter.Eventually.of_forall fun _ => rfl
  | cons hfirst _ ih =>
    rw [forall_mem_cons] at hgood
    filter_upwards [hread _ _ hfirst hgood.1, ih hgood.2] with fuel hfirst hrest
    rw [mapM_cons, hfirst, hrest]
    rfl

theorem forall₂_of_mapM {α β : Type} {read : α → Except Mir.ArenaError β} {indexes : List α}
    {values : List β} (h : indexes.mapM read = .ok values) :
    List.Forall₂ (fun i v => read i = .ok v) indexes values := by
  induction indexes generalizing values with
  | nil =>
    cases h
    exact List.Forall₂.nil
  | cons i indexes ih =>
    rw [mapM_cons] at h
    obtain ⟨v, hfirst, h⟩ := bind_eq_ok_iff.mp h
    obtain ⟨vs, hrest, h⟩ := bind_eq_ok_iff.mp h
    cases h
    exact List.Forall₂.cons hfirst (ih hrest)

theorem forall₂_both {α β : Type} {R R' : α → β → Prop} {as : List α} {bs : List β}
    (h : List.Forall₂ R as bs) (h' : List.Forall₂ R' as bs) : ∀ b ∈ bs, ∃ a, R a b ∧ R' a b := by
  induction h with
  | nil => simp
  | cons hfirst _ ih =>
    cases h' with
    | cons hfirst' hrest' =>
      intro b hb
      rcases mem_cons.mp hb with rfl | hb
      · exact ⟨_, hfirst, hfirst'⟩
      · exact ih hrest' b hb

theorem DeclaredStored.reads (h : DeclaredStored builder c i f)
    (hplain : ∀ param ∈ f.params, param.addsParameters builder = false) :
    ∀ᶠ fuel in atTop, readFunction c fuel (some i) = .ok (kirFunction builder f) := by
  obtain ⟨edges, hrow, hstored⟩ := h
  obtain ⟨indexes, hcontents, hparams⟩ := hstored.params
  refine reads_function hrow ⟨hstored.body, ?_, hstored.captures⟩
  refine Mir.listReads_of_listed ⟨indexes, hcontents, ?_⟩
  exact mapM_reads hparams hplain fun i param hparam => hparam.own

theorem kirExpr_ne_nil (e : Expr) : kirExpr builder e ≠ .nil := by
  intro h
  cases h

variable {fuel : Nat}

theorem ParamStored.plain_of_reads {param : Param} (h : ParamStored builder c i param)
    (hread : readParameter c (readExpression c fuel) (some i) =
      .ok (kirParam builder param.toParamSig (kirDefault builder param))) :
    param.addsParameters builder = false := by
  by_contra hadds
  rw [Bool.not_eq_false] at hadds
  obtain ⟨row, hrow, hnone⟩ := h.other hadds
  rw [readParameter, Mir.readRef_row hrow, hnone] at hread
  obtain ⟨default, hdefault, hread⟩ := bind_eq_ok_iff.mp hread
  obtain ⟨binding, -, hread⟩ := bind_eq_ok_iff.mp hread
  -- The parameter of the closure has no default, but this one has.
  have hnil : default = .nil := by
    cases fuel with
    | zero => cases hdefault
    | succ fuel =>
      exact (Except.ok.inj hdefault).symm
  obtain ⟨e, he, -⟩ : ∃ e, param.default = some e ∧ e.addsParameters builder = true := by
    simpa [Param.addsParameters, Option.any_eq_true] using hadds
  have hsame : kirDefault builder param = default := by
    have hnode := Except.ok.inj hread
    simp only [kirParam, Mir.KIRParam.node.injEq] at hnode
    exact hnode.2.1.symm
  rw [hnil, kirDefault, he] at hsame
  exact kirExpr_ne_nil e hsame

theorem DeclaredStored.plain_of_reads (h : DeclaredStored builder c i f)
    (hread : readFunction c fuel (some i) = .ok (kirFunction builder f)) :
    ∀ param ∈ f.params, param.addsParameters builder = false := by
  obtain ⟨edges, hrow, hstored⟩ := h
  obtain ⟨indexes, hcontents, hparams⟩ := hstored.params
  cases fuel with
  | zero => cases hread
  | succ fuel =>
    rw [readFunction, Mir.readRef_row hrow] at hread
    obtain ⟨body, -, hread⟩ := bind_eq_ok_iff.mp hread
    obtain ⟨params, hlist, hread⟩ := bind_eq_ok_iff.mp hread
    obtain ⟨captures, -, hread⟩ := bind_eq_ok_iff.mp hread
    have hsame : params =
        f.params.map fun p => kirParam builder p.toParamSig (kirDefault builder p) := by
      have hnode := Except.ok.inj hread
      simp only [kirFunction, Mir.KIRFunction.node.injEq] at hnode
      exact hnode.2.2.1
    have hcontents' : c.contents .parameter
        (functionRow (functionScalars builder f) edges).row.params = some indexes := hcontents
    rw [hsame, Mir.readList, Mir.indexList, hcontents'] at hlist
    have hreads := forall₂_map_right_iff.mp (forall₂_of_mapM hlist)
    intro param hparam
    obtain ⟨j, hstored, hread⟩ := forall₂_both hparams hreads param hparam
    exact hstored.plain_of_reads hread

theorem ArenaStored.reads (h : ArenaStored builder p arena)
    (hplain : ∀ f ∈ p.functions, ∀ param ∈ f.params, param.addsParameters builder = false)
    (htraits : arena.traits = []) (hvalue : arena.value = ()) :
    ∀ᶠ fuel in atTop, arena.toKIRDocument fuel = .ok (kirDocument builder p) := by
  obtain ⟨indexes, hcontents, hstored⟩ := h.functions
  have hfunctions : ∀ᶠ fuel in atTop,
      indexes.mapM (fun i => readFunction arena.tables fuel (some i)) =
        .ok (p.functions.map (kirFunction builder)) :=
    mapM_reads hstored hplain fun i f hf => hf.reads
  filter_upwards [hfunctions, h.statements.2] with fuel hfunctions hstatements
  rw [Mir.KIRArena.toKIRDocument, h.valid]
  rw [Mir.readList_eq hcontents hfunctions, hstatements, htraits, hvalue]
  rfl

theorem ArenaStored.plain_of_reads (h : ArenaStored builder p arena)
    (hread : arena.toKIRDocument fuel = .ok (kirDocument builder p)) :
    ∀ f ∈ p.functions, ∀ param ∈ f.params, param.addsParameters builder = false := by
  obtain ⟨indexes, hcontents, hstored⟩ := h.functions
  rw [Mir.KIRArena.toKIRDocument, h.valid] at hread
  obtain ⟨functions, hlist, hread⟩ := bind_eq_ok_iff.mp hread
  obtain ⟨statements, -, hread⟩ := bind_eq_ok_iff.mp hread
  have hsame : functions = p.functions.map (kirFunction builder) :=
    congrArg Mir.KIRDocument.functions (Except.ok.inj hread)
  rw [hsame, Mir.readList, Mir.indexList, hcontents] at hlist
  have hreads := forall₂_map_right_iff.mp (forall₂_of_mapM hlist)
  intro f hf
  obtain ⟨i, hstored, hread⟩ := forall₂_both hstored hreads f hf
  exact hstored.plain_of_reads hread

end Reading

/-! ## Tree forms have no missing nodes -/

def ExprChildren.complete (children : ExprChildren) : Bool :=
  children.left.complete && children.right.complete && children.operand.complete &&
    children.base.complete && children.receiver.complete && children.callee.complete &&
    children.lambda.complete && Mir.exprsComplete children.args &&
    Mir.exprsComplete children.items && Mir.exprsComplete children.mapKeys &&
    Mir.exprsComplete children.values

theorem exprNode_complete (e : Expr) (children : ExprChildren) :
    (exprNode builder e children).complete = children.complete := by
  rw [exprNode, Mir.KIRExpr.complete, ExprChildren.complete, Mir.KIRValue.complete, Bool.and_true]

def StmtChildren.complete (children : StmtChildren) : Bool :=
  children.init.complete && children.expr.complete && children.target.complete &&
    children.valueExpr.complete && children.cond.complete && children.iter.complete &&
    children.ret.complete && children.scrutinee.complete && Mir.stmtsComplete children.thenBody &&
    Mir.stmtsComplete children.elseBody && Mir.stmtsComplete children.body &&
    Mir.armsComplete children.arms

theorem stmtNode_complete (s : Stmt) (children : StmtChildren) :
    (stmtNode builder s children).complete = children.complete := by
  rw [stmtNode, Mir.KIRStmt.complete, StmtChildren.complete]

theorem kirParams_complete (params : List ParamSig) :
    Mir.paramsComplete (params.map fun p => kirParam builder p .nil) = true := by
  induction params with
  | nil => rfl
  | cons p params ih => rw [map_cons, kirParam, Mir.paramsComplete, ih]; rfl

theorem kirCaptures_complete (captures : List Capture) :
    (kirCaptures builder captures).all Option.isSome = true := by
  simp [kirCaptures]

attribute [local simp] ExprChildren.complete StmtChildren.complete kirChildren kirStmtChildren
  kirExprs kirStmts kirArms Mir.KIRExpr.complete Mir.KIRFunction.complete Mir.exprsComplete
  Mir.stmtsComplete Mir.armsComplete

mutual

theorem kirExpr_complete (e : Expr) :
    (exprNode builder e (kirChildren builder e)).complete = true := by
  rw [exprNode_complete]
  cases e with
  | int | float | bool | nil | string | enum | var => rfl
  | unary tok op operand | propagate tok operand => simp [kirExpr_complete operand]
  | binary tok op left right | index tok right left =>
    simp [kirExpr_complete left, kirExpr_complete right]
  | field tok base name type => simp [kirExpr_complete base]
  | call tok callee args ref =>
    by_cases homits : omitsCallee builder.isBuiltin callee ref = true
    · simp [homits, kirExprs_complete args]
    · simp [homits, kirExpr_complete callee, kirExprs_complete args]
  | method tok receiver name args ref => simp [kirExpr_complete receiver, kirExprs_complete args]
  | array tok items | set tok items | struct tok name fields items type =>
    simp [kirExprs_complete items]
  | map tok keys values => simp [kirExprs_complete keys, kirExprs_complete values]
  | lambda tok sig body captures =>
    have hcaptures := @kirCaptures_complete builder captures
    rw [all_eq_true] at hcaptures
    simpa [kirStmts_complete body, kirParams_complete] using hcaptures

theorem kirExprs_complete (es : List Expr) : Mir.exprsComplete (kirExprs builder es) = true := by
  cases es with
  | nil => rfl
  | cons e es =>
    have hnil : (exprNode builder e (kirChildren builder e)).isNil = false := rfl
    simp [hnil, kirExpr_complete e, kirExprs_complete es]

theorem kirStmt_complete (s : Stmt) :
    (stmtNode builder s (kirStmtChildren builder s)).complete = true := by
  rw [stmtNode_complete]
  cases s with
  | letStmt info init => simp [kirExpr_complete init]
  | exprStmt tok e => simp [kirExpr_complete e]
  | assign tok target value => simp [kirExpr_complete target, kirExpr_complete value]
  | ifStmt tok cond thenBody elseBody =>
    simp [kirExpr_complete cond, kirStmts_complete thenBody, kirStmts_complete elseBody]
  | whileStmt tok cond body | forStmt info cond body =>
    simp [kirExpr_complete cond, kirStmts_complete body]
  | returnStmt tok value =>
    cases value with
    | none => rfl
    | some e => simp [kirExpr_complete e]
  | breakStmt | continueStmt => rfl
  | deferStmt tok body | unsafeStmt tok body => simp [kirStmts_complete body]
  | matchStmt tok scrutinee arms => simp [kirExpr_complete scrutinee, kirArms_complete arms]

theorem kirStmts_complete (rest : List Stmt) :
    Mir.stmtsComplete (kirStmts builder rest) = true := by
  cases rest with
  | nil => rfl
  | cons s rest =>
    have hnil : (stmtNode builder s (kirStmtChildren builder s)).isNil = false := rfl
    simp [hnil, kirStmt_complete s, kirStmts_complete rest]

theorem kirArms_complete (arms : List MatchArm) :
    Mir.armsComplete (kirArms builder arms) = true := by
  cases arms with
  | nil => rfl
  | cons arm rest =>
    obtain ⟨p, body⟩ := arm
    simp [kirStmts_complete body, kirArms_complete rest]

end

theorem kirDefault_complete (p : Param) : (kirDefault builder p).complete = true := by
  cases hdefault : p.default with
  | none => simp [kirDefault, hdefault]
  | some e =>
    rw [kirDefault, hdefault]
    exact kirExpr_complete e

theorem kirFunctionParams_complete (params : List Param) :
    Mir.paramsComplete (params.map fun p =>
      kirParam builder p.toParamSig (kirDefault builder p)) = true := by
  induction params with
  | nil => rfl
  | cons p params ih =>
    rw [map_cons, kirParam, Mir.paramsComplete, ih, kirDefault_complete]
    rfl

theorem kirDocument_wellFormed (p : Program) : (kirDocument builder p).wellFormed = true := by
  have hfunctions : Mir.functionsComplete (p.functions.map (kirFunction builder)) = true := by
    simp only [Mir.functionsComplete, all_map, all_eq_true]
    intro f _
    simp [kirFunction, Mir.KIRFunction.isNil, kirStmts_complete, kirFunctionParams_complete]
  simp only [Mir.KIRDocument.wellFormed, kirDocument, hfunctions, kirStmts_complete,
    all_nil, Bool.and_self]

/-! ## Fidelity -/

/-- The arena that is built of a program reads back as the program, with the parameters of its
    functions, methods and closures as they are declared; and so does the arena that the tree
    form of the program is flattened to. -/
structure SourceFaithful (builder : ArenaBuilder) (p : Program) : Prop where
  reads : ∃ bound, ∀ fuel ≥ bound,
    (sourceArena builder p).toKIRDocument fuel = .ok (kirDocument builder p)
  flattened : ∃ arena, Mir.newKIRArena (kirDocument builder p) = .ok arena ∧
    ∃ bound, ∀ fuel ≥ bound,
      arena.toKIRDocument fuel = (sourceArena builder p).toKIRDocument fuel

theorem SourceFaithful.of_plain {p : Program}
    (hplain : ∀ f ∈ p.functions, ∀ param ∈ f.params, param.addsParameters builder = false) :
    SourceFaithful builder p := by
  have hreads := (sourceArena_stored builder p).reads hplain rfl rfl
  obtain ⟨bound, hreads⟩ := Filter.eventually_atTop.mp hreads
  obtain ⟨arena, hnew, -, -, bound', hreads'⟩ :=
    Mir.arena_lossless (kirDocument builder p) (kirDocument_wellFormed p)
  refine ⟨⟨bound, hreads⟩, arena, hnew, max bound bound', ?_⟩
  intro fuel hfuel
  rw [hreads fuel (le_of_max_le_left hfuel), hreads' fuel (le_of_max_le_right hfuel)]

theorem SourceFaithful.plain {p : Program} (h : SourceFaithful builder p) :
    ∀ f ∈ p.functions, ∀ param ∈ f.params, param.addsParameters builder = false := by
  obtain ⟨bound, hreads⟩ := h.reads
  exact (sourceArena_stored builder p).plain_of_reads (hreads bound (Nat.le_refl bound))

/-- The arena of a program is faithful exactly if no default of a parameter has a closure with
    parameters. -/
theorem sourceArena_faithful_iff (builder : ArenaBuilder) (p : Program) :
    SourceFaithful builder p ↔
      ∀ f ∈ p.functions, ∀ param ∈ f.params, param.addsParameters builder = false :=
  ⟨SourceFaithful.plain, SourceFaithful.of_plain⟩

/-! ## A default that is a closure with a parameter -/

/-- `Int`, at a position of the first line. -/
def intAt (start : Nat) : TypeSpec := .named "Int" [] (tokenAt start 3)

/-- `fn apply(f: fn(Int) -> Int = fn(y: Int) -> Int { return y; }) {}` -/
def closureDefault : Program where
  functions := [{
    name := "apply"
    params := [{
      name := "f", type := .function [intAt 15] (intAt 23) (tokenAt 12 2), tok := tokenAt 9 1
      default := some (.lambda { tok := tokenAt 29 2 }
        { name := "", params := [⟨"y", intAt 35, tokenAt 32 1⟩], ret := intAt 43 }
        [.returnStmt (tokenAt 49 6) (some (.var { tok := tokenAt 56 1 } "y" {}))] []) }]
    ret := .named "Nil" [] (tokenAt 64 3)
    tok := tokenAt 0 2 }]

/-- The arena of an accepted function does not have its parameter, but that of the closure in
    its default. -/
theorem closureDefault_not_faithful : ∃ p' h, closureDefault.unchecked = true ∧
    @check ieee plainEnv 9 closureDefault = .ok (p', h) ∧
      ¬SourceFaithful { isBuiltin := fun _ => false, scopes := h, paths := id } p' := by
  let _ := ieee
  have hadds : ((check plainEnv 9 closureDefault).toOption.any fun r =>
      r.1.functions.any fun f => f.params.any fun param => param.addsParameters
        { isBuiltin := fun _ => false, scopes := r.2, paths := id }) = true := by
    decide +kernel
  cases run : check plainEnv 9 closureDefault with
  | error d =>
    rw [run] at hadds
    cases hadds
  | ok r =>
    rw [run] at hadds
    refine ⟨r.1, r.2, by decide, rfl, ?_⟩
    intro h
    simp only [Except.toOption, Option.any_some, any_eq_true] at hadds
    obtain ⟨f, hf, param, hparam, hadds⟩ := hadds
    rw [h.plain f hf param hparam] at hadds
    cases hadds

end Kryndel
