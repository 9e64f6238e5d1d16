import Kryndel.Kir.Flatten

/-!
# The arena of a document

A document without missing nodes in its lists is flattened to an arena in which all references
are in bounds and every row has one owner, and which reads back as the document.
-/

namespace Kryndel.Mir

open Tables Filter List

variable {S : Scalars}

/-- A parameter of a method of a trait has no default and no binding. -/
def KIRParam.plain : KIRParam S → Bool
  | .nil => true
  | .node _ default binding => default.isNil && binding.isNone

def KIRTraitMethod.plain (method : KIRTraitMethod S) : Bool :=
  method.params.all KIRParam.plain

def KIRTrait.plain (trait : KIRTrait S) : Bool :=
  trait.methods.all fun method => method.all KIRTraitMethod.plain

def functionsComplete (functions : List (KIRFunction S)) : Bool :=
  functions.all fun function => !function.isNil && function.complete

/-- No list of nodes has a missing node, and the parameters of the methods of traits have
    neither defaults nor bindings. -/
def KIRDocument.wellFormed (document : KIRDocument S) : Bool :=
  functionsComplete document.functions && stmtsComplete document.statements &&
    document.traits.all fun trait => trait.all KIRTrait.plain

/-- The rows of an arena. -/
def KIRArena.nodes (arena : KIRArena S) : List (Address NodeKind) :=
  NodeKind.all.flatMap fun kind =>
    (List.range (arena.tables.rows kind).length).map fun index => (kind, index)

/-- The references of an arena: those of its rows, and those to its functions and statements. -/
def KIRArena.references (arena : KIRArena S) : List (Address NodeKind) :=
  arena.nodes.flatMap (arena.tables.edgesAt rowEdges) ++
    (arena.tables.listed .function arena.topFunctions ++
      arena.tables.listed .statement arena.topStatements)

/-! ## Traits -/

theorem cloneKIRTraitParam_plain {param : KIRParam S} (h : param.plain = true) :
    cloneKIRTraitParam param = param := by
  cases param with
  | nil => rfl
  | node value default binding =>
    simp only [KIRParam.plain, Bool.and_eq_true] at h
    cases default with
    | nil =>
      cases binding with
      | none => rfl
      | some binding => cases h.2
    | node => cases h.1

theorem map_eq_self {α : Type} {f : α → α} {p : α → Bool} {as : List α} (h : as.all p = true)
    (hf : ∀ a, p a = true → f a = a) : as.map f = as := by
  induction as with
  | nil => rfl
  | cons a as ih =>
    rw [all_cons, Bool.and_eq_true] at h
    rw [map_cons, hf a h.1, ih h.2]

theorem option_map_eq_self {α : Type} {f : α → α} {p : α → Bool} {a : Option α}
    (h : a.all p = true) (hf : ∀ a, p a = true → f a = a) : a.map f = a := by
  cases a with
  | none => rfl
  | some a => exact congrArg some (hf a h)

theorem cloneKIRTraits_plain {traits : List (Option (KIRTrait S))}
    (h : traits.all (fun trait => trait.all KIRTrait.plain) = true) :
    cloneKIRTraits traits = traits := by
  have hmethod : ∀ method : KIRTraitMethod S, method.plain = true →
      cloneKIRTraitMethod method = method := by
    intro method hplain
    rw [cloneKIRTraitMethod, map_eq_self hplain fun _ => cloneKIRTraitParam_plain]
  refine map_eq_self h fun trait htrait => option_map_eq_self htrait fun trait hplain => ?_
  have hmethods : trait.methods.map (fun method => method.map cloneKIRTraitMethod) =
      trait.methods :=
    map_eq_self hplain fun method hmethods => option_map_eq_self hmethods hmethod
  rw [hmethods]

/-! ## The tables of a document -/

theorem appendFunctions_makes (functions : List (KIRFunction S))
    (h : functionsComplete functions = true) :
    Makes rowEdges (appendFunctions functions) (fun indexes _ => indexes.map (.function, ·))
      fun indexes c => ∀ᶠ fuel in atTop,
        indexes.mapM (fun index => readFunction c fuel (some index)) = .ok functions := by
  induction functions with
  | nil => exact Makes.pure [] (fun _ => rfl) fun _ => Eventually.of_forall fun _ => rfl
  | cons function functions ih =>
    simp only [functionsComplete, all_cons, Bool.and_eq_true, Bool.not_eq_true'] at h
    have hfunction := (appendFunction_appends function h.1.2).present h.1.1
    rw [appendFunctions, ← bind_assoc]
    refine (hfunction.cons (ih h.2)).mono ?_
    rintro indexes c ⟨index, rest, rfl, hread, hrest⟩
    filter_upwards [hread, hrest] with fuel hread hrest
    exact mapM_cons_ok hread hrest

/-- The tables from which the functions and the statements of a document can be read. -/
structure Flattened (document : KIRDocument S) (top : MIRNodeRefList × MIRNodeRefList)
    (tables : MIRTables S) : Prop where
  functions : ListReads tables .function (readFunction tables) top.1 document.functions
  statements : ListReads tables .statement (readStatement tables) top.2 document.statements

theorem appendTop_makes {document : KIRDocument S}
    (hfunctions : functionsComplete document.functions = true)
    (hstatements : stmtsComplete document.statements = true) :
    Makes rowEdges (appendTop document)
      (fun top c => c.listed .function top.1 ++ c.listed .statement top.2)
      fun top c => Flattened document top c := by
  intro before G
  refine ((appendFunctions_makes _ hfunctions).list _ _).bind fun functions => ?_
  refine ((appendStatements_makes _ hstatements).list _ _).bind fun statements => ?_
  apply Builds.pure
  rintro old c ⟨howned, ⟨hG, hreads⟩, hreads'⟩
  refine ⟨?_, hG, listReads_of_listed hreads, listReads_of_listed hreads'⟩
  simpa using howned

/-! ## References in bounds -/

section Bounds

variable {tables : MIRTables S} {rows refs : List (Address NodeKind)}

theorem checkRef_iff (hadds : Adds Store.empty tables rows) (ref : Address NodeKind) :
    checkRef tables ref = true ↔ ref ∈ rows := by
  rw [hadds.mem, checkRef, decide_eq_true_eq]
  simp [Store.empty]

theorem checkList_of_listed {kind : NodeKind} {list : MIRNodeRefList}
    (hadds : Adds Store.empty tables rows) (hrange : (tables.contents kind list).isSome)
    (hlisted : ∀ ref ∈ tables.listed kind list, ref ∈ rows) :
    checkList tables kind list = true := by
  obtain ⟨indexes, hcontents⟩ := Option.isSome_iff_exists.mp hrange
  rw [checkList, hcontents]
  simp only [all_eq_true, checkRef_iff hadds]
  intro index hindex
  apply hlisted
  rw [Store.listed, hcontents]
  exact mem_map_of_mem hindex

theorem checkRow_of_owned (hadds : Adds Store.empty tables rows)
    (howned : Owned rowEdges tables rows refs) {kind : NodeKind} {row : MIRRow S kind}
    (hrow : row ∈ tables.rows kind) : checkRow tables kind row = true := by
  obtain ⟨index, hindex⟩ := mem_iff_getElem?.mp hrow
  have hmem : (kind, index) ∈ rows := by
    rw [hadds.mem]
    exact ⟨Nat.zero_le _, (List.getElem?_eq_some_iff.mp hindex).1⟩
  have hedges : tables.edgesAt rowEdges (kind, index) = tables.targets (rowEdges kind row) := by
    show ((tables.rows kind)[index]?).elim [] _ = _
    rw [hindex]
    rfl
  have htargets : ∀ ref ∈ tables.targets (rowEdges kind row), ref ∈ rows := by
    rw [← hedges]
    exact fun ref href => howned.mem_of_edge hmem href
  rw [checkRow, Bool.and_eq_true, all_eq_true, all_eq_true]
  constructor
  · intro ref href
    rw [checkRef_iff hadds]
    exact htargets ref (mem_append_left _ href)
  · intro list hlist
    apply checkList_of_listed hadds (howned.inRange _ hmem row hindex list hlist)
    intro ref href
    exact htargets ref (mem_append_right _ (mem_flatMap.mpr ⟨list, hlist, href⟩))

end Bounds

theorem NodeKind.mem_all (kind : NodeKind) : kind ∈ NodeKind.all := by
  cases kind <;> decide

theorem NodeKind.nodup_all : NodeKind.all.Nodup := by decide

theorem KIRArena.mem_nodes (arena : KIRArena S) (kind : NodeKind) (index : Nat) :
    (kind, index) ∈ arena.nodes ↔ index < (arena.tables.rows kind).length := by
  simp [KIRArena.nodes, NodeKind.mem_all]

theorem KIRArena.nodup_nodes (arena : KIRArena S) : arena.nodes.Nodup := by
  rw [KIRArena.nodes, nodup_flatMap]
  constructor
  · intro kind _
    exact nodup_range.map fun i j h => (Prod.mk.inj h).2
  · refine NodeKind.nodup_all.imp fun {kind kind'} hne => ?_
    intro x hx hx'
    obtain ⟨i, -, rfl⟩ := mem_map.mp hx
    obtain ⟨j, -, hj⟩ := mem_map.mp hx'
    exact hne (Prod.mk.inj hj).1.symm

/-- Flattening a document and reading the arena gives the document again. The arena's
    references are in bounds, and they are its rows, each of them once. -/
theorem arena_lossless (document : KIRDocument S) (h : document.wellFormed = true) :
    ∃ arena, newKIRArena document = .ok arena ∧ arena.validateReferences = true ∧
      arena.references.Perm arena.nodes ∧
      ∃ bound, ∀ fuel ≥ bound, arena.toKIRDocument fuel = .ok document := by
  simp only [KIRDocument.wellFormed, Bool.and_eq_true] at h
  obtain ⟨⟨hfunctions, hstatements⟩, htraits⟩ := h
  obtain ⟨top, tables, rows, hrun, hplaces⟩ :=
    appendTop_makes hfunctions hstatements (fun _ => []) (fun _ => True) Store.empty
  obtain ⟨howned, -, hreads⟩ := hplaces.holds tables (Keeps.refl _ _) [] ⟨Owned.nil, trivial⟩
  have hadds : Adds Store.empty tables rows := hplaces.adds
  simp only [nil_append] at howned
  let arena : KIRArena S :=
    { value := document.value, traits := cloneKIRTraits document.traits, tables := tables
      topFunctions := top.1, topStatements := top.2 }
  have hvalid : arena.validateReferences = true := by
    simp only [KIRArena.validateReferences, Bool.and_eq_true, all_eq_true]
    refine ⟨⟨?_, ?_⟩, fun kind _ row hrow => checkRow_of_owned hadds howned hrow⟩
    · exact checkList_of_listed hadds hreads.functions.1
        fun ref href => howned.mem_of_ref (mem_append_left _ href)
    · exact checkList_of_listed hadds hreads.statements.1
        fun ref href => howned.mem_of_ref (mem_append_right _ href)
  have hnodes : rows.Perm arena.nodes := by
    rw [perm_ext_iff_of_nodup hadds.nodup arena.nodup_nodes]
    rintro ⟨kind, index⟩
    rw [arena.mem_nodes, hadds.mem]
    simp [Store.empty, arena]
  refine ⟨arena, ?_, hvalid, ?_, ?_⟩
  · rw [newKIRArena, hrun]
    show (if arena.validateReferences then _ else _) = _
    rw [if_pos hvalid]
    rfl
  · refine List.Perm.trans ?_ (howned.perm.trans hnodes)
    exact (hnodes.symm.flatMap_right _).append_right _
  · refine eventually_atTop.mp ?_
    filter_upwards [hreads.functions.2, hreads.statements.2] with fuel hread hread'
    rw [KIRArena.toKIRDocument, hvalid]
    show (do
      let functions ← readList tables .function (readFunction tables fuel) top.1
      let statements ← readList tables .statement (readStatement tables fuel) top.2
      return ({ value := document.value, traits := cloneKIRTraits (cloneKIRTraits document.traits),
                functions, statements } : KIRDocument S)) = _
    rw [hread, hread', cloneKIRTraits_plain htraits, cloneKIRTraits_plain htraits]
    rfl

/-- Scalars that are texts. -/
def textScalars : Scalars :=
  ⟨String, String, String, String, String, String, String, String, String, String, String⟩

/-- `fn f(x: Array = map(fn(y: Int) { return y }, [1])) { match x { _ => {} } }` -/
def mapDocument : KIRDocument textScalars where
  value := "kry-ir"
  traits := [some { value := "Show", methods := [some
    { value := "show", params := [.node "self" .nil none] }] }]
  functions := [.node "f"
    [.node "match" none .nil .nil .nil .nil .nil .nil .nil
      (.node "var" .nil .nil .nil .nil .nil .nil .nil (some "x") .nil [] [] [] []) [] [] []
      [.node "arm" (some { value := "wildcard", resolvedBinding := none }) []]]
    [.node "x"
      (.node "call" .nil .nil .nil .nil .nil .nil .nil none .nil
        [.node "lambda" .nil .nil .nil .nil .nil .nil
          (.node "closure"
            [.node "return" none .nil .nil .nil .nil .nil .nil
              (.node "var" .nil .nil .nil .nil .nil .nil .nil (some "y") .nil [] [] [] []) .nil
              [] [] [] []]
            [.node "y" .nil (some "y")] [some { binding := some "z" }])
          none .nil [] [] [] [],
         .node "array" .nil .nil .nil .nil .nil .nil .nil none .nil []
          [.node "int" .nil .nil .nil .nil .nil .nil .nil none (.node "1" .nil []) [] [] [] []]
          [] []]
        [] [] [])
      (some "x")]
    []]
  statements := []

theorem arena_lossless_map :
    ∃ arena, newKIRArena mapDocument = .ok arena ∧ arena.validateReferences = true ∧
      arena.references.Perm arena.nodes ∧
      ∃ bound, ∀ fuel ≥ bound, arena.toKIRDocument fuel = .ok mapDocument :=
  arena_lossless mapDocument rfl

end Kryndel.Mir
