import Kryndel.Kir.Document
import Mathlib.Order.Filter.AtTopBot.Basic

/-!
# Flattening loses nothing

What is appended to an arena can be read back from every later arena that still has the rows,
as soon as the bound on the depth is large enough; and every row has one owner. The induction
follows the nodes of a document, with one program rule for a node and one for a list.
-/

namespace Kryndel.Mir

open Tables Filter

variable {S : Scalars}

/-! ## Complete documents -/

def KIRValue.isNil : KIRValue S → Bool
  | .nil => true
  | .node _ _ _ => false

def KIRExpr.isNil : KIRExpr S → Bool
  | .nil => true
  | .node _ _ _ _ _ _ _ _ _ _ _ _ _ _ => false

def KIRStmt.isNil : KIRStmt S → Bool
  | .nil => true
  | .node _ _ _ _ _ _ _ _ _ _ _ _ _ _ => false

def KIRFunction.isNil : KIRFunction S → Bool
  | .nil => true
  | .node _ _ _ _ => false

mutual

/-- No list under a value has a missing node. -/
def KIRValue.complete : KIRValue S → Bool
  | .nil => true
  | .node _ inner array => inner.complete && valuesComplete array

def valuesComplete : List (KIRValue S) → Bool
  | [] => true
  | value :: values => !value.isNil && value.complete && valuesComplete values

end

mutual

/-- No list under an expression has a missing node. -/
def KIRExpr.complete : KIRExpr S → Bool
  | .nil => true
  | .node _ left right operand base receiver callee lambda _ const args items mapKeys values =>
    left.complete && right.complete && operand.complete && base.complete && receiver.complete &&
      callee.complete && lambda.complete && const.complete && exprsComplete args &&
      exprsComplete items && exprsComplete mapKeys && exprsComplete values

def exprsComplete : List (KIRExpr S) → Bool
  | [] => true
  | expression :: expressions =>
    !expression.isNil && expression.complete && exprsComplete expressions

def KIRStmt.complete : KIRStmt S → Bool
  | .nil => true
  | .node _ _ init expr target valueExpr cond iter ret scrutinee thenBody elseBody body arms =>
    init.complete && expr.complete && target.complete && valueExpr.complete && cond.complete &&
      iter.complete && ret.complete && scrutinee.complete && stmtsComplete thenBody &&
      stmtsComplete elseBody && stmtsComplete body && armsComplete arms

def stmtsComplete : List (KIRStmt S) → Bool
  | [] => true
  | statement :: statements =>
    !statement.isNil && statement.complete && stmtsComplete statements

def KIRFunction.complete : KIRFunction S → Bool
  | .nil => true
  | .node _ body params captures =>
    stmtsComplete body && paramsComplete params && captures.all Option.isSome

def paramsComplete : List (KIRParam S) → Bool
  | [] => true
  | .nil :: _ => false
  | .node _ default _ :: params => default.complete && paramsComplete params

def armsComplete : List (KIRArm S) → Bool
  | [] => true
  | .nil :: _ => false
  | .node _ _ body :: arms => stmtsComplete body && armsComplete arms

end

/-! ## Pointers -/

/-- A program appends nothing for nil, and otherwise a row of a kind that can be read. -/
def Appends (append : ArenaM S MIRRef) (kind : NodeKind) (isNil : Bool)
    (read : MIRRef → MIRTables S → Prop) : Prop :=
  (isNil = true ∧ append = pure none ∧ ∀ c, read none c) ∨
    ∃ m, append = some <$> m ∧
      Makes rowEdges m (fun index _ => [(kind, index)]) fun index c => read (some index) c

section Pointers

variable {append : ArenaM S MIRRef} {kind : NodeKind} {isNil : Bool}
  {read : MIRRef → MIRTables S → Prop}

theorem Appends.makes (h : Appends append kind isNil read) :
    Makes rowEdges append (fun ref _ => Address.optional kind ref) read := by
  rcases h with ⟨-, rfl, hread⟩ | ⟨m, rfl, hm⟩
  · exact Makes.pure none (fun _ => rfl) hread
  · exact hm.map (fun _ _ _ => rfl) fun _ _ hr => hr

theorem Appends.present (h : Appends append kind isNil read) (hnil : isNil = false) :
    Makes rowEdges (append >>= present kind) (fun index _ => [(kind, index)])
      fun index c => read (some index) c := by
  rcases h with ⟨htrue, -, -⟩ | ⟨m, rfl, hm⟩
  · rw [hnil] at htrue
    cases htrue
  · have hpresent : (some <$> m) >>= Mir.present kind = m := by
      rw [bind_map_left]
      exact bind_pure m
    rwa [hpresent]

end Pointers

/-! ## Reading back -/

section Read

variable {c : MIRTables S} {kind : NodeKind} {α : Type}

theorem eventually_succ {P : Nat → Prop} (h : ∀ᶠ fuel in atTop, P (fuel + 1)) :
    ∀ᶠ fuel in atTop, P fuel := by
  obtain ⟨n, hn⟩ := eventually_atTop.mp h
  refine eventually_atTop.mpr ⟨n + 1, ?_⟩
  intro m hm
  obtain ⟨k, rfl⟩ := Nat.exists_eq_add_of_le' (Nat.le_of_add_left_le hm)
  exact hn k (by omega)

theorem readRef_row {nil : α} {read : MIRRow S kind → Except ArenaError α} {index : Nat}
    {row : MIRRow S kind} (h : c.row (kind, index) = some row) :
    readRef c kind nil read (some index) = read row := by
  rw [readRef, h]

variable {list : MIRNodeRefList}

theorem readList_eq {read : MIRRef → Except ArenaError α} {indexes : List Nat} {values : List α}
    (hcontents : c.contents kind list = some indexes)
    (hvalues : indexes.mapM (fun index => read (some index)) = .ok values) :
    readList c kind read list = .ok values := by
  rw [readList, indexList, hcontents]
  exact hvalues

theorem mapM_cons_ok {f : Nat → Except ArenaError α} {index : Nat} {indexes : List Nat} {a : α}
    {as : List α} (h : f index = .ok a) (h' : indexes.mapM f = .ok as) :
    (index :: indexes).mapM f = .ok (a :: as) := by
  rw [List.mapM_cons, h]
  rw [h']
  rfl

theorem isSome_of_listed {P : List Nat → Prop}
    (h : ∃ indexes, c.contents kind list = some indexes ∧ P indexes) :
    (c.contents kind list).isSome := by
  obtain ⟨indexes, hcontents, -⟩ := h
  rw [hcontents]
  rfl

end Read

/-! ## Values and bindings -/

theorem appendBinding_appends (binding : Option S.binding) :
    Appends (appendBinding binding) .binding binding.isNone
      fun ref c => readBinding c ref = .ok binding := by
  cases binding with
  | none => exact Or.inl ⟨rfl, rfl, fun _ => rfl⟩
  | some binding =>
    refine Or.inr ⟨_, rfl, (Makes.leaf _ rfl).mono ?_⟩
    intro index c hrow
    exact readRef_row hrow

mutual

theorem appendValue_appends (value : KIRValue S) (h : value.complete = true) :
    Appends (appendValue value) .value value.isNil
      fun ref c => ∀ᶠ fuel in atTop, readValue c fuel ref = .ok value := by
  cases value with
  | nil => exact Or.inl ⟨rfl, rfl, fun c => eventually_succ (Eventually.of_forall fun _ => rfl)⟩
  | node value inner array =>
    rw [KIRValue.complete, Bool.and_eq_true] at h
    have hinner := (appendValue_appends inner h.1).makes
    have harray := (appendValues_makes array h.2).list
    refine Or.inr ⟨_, rfl, ?_⟩
    refine (Makes.node (k := NodeKind.value) (F := fun (row : MIRValue S) c => row.value = value ∧
      (∀ᶠ fuel in atTop, readValue c fuel row.inner = .ok inner) ∧
      ∀ᶠ fuel in atTop, readList c .value (readValue c fuel) row.array = .ok array) ?_).mono ?_
    · refine (hinner _ _).bind fun inner => (harray _ _).bind fun array => Builds.pure _ ?_
      rintro old c ⟨howned, ⟨-, hinner⟩, harray⟩
      refine ⟨by simpa [Store.targets, rowEdges] using howned, ?_, rfl, hinner, ?_⟩
      · simpa [Store.InRange, rowEdges] using isSome_of_listed harray
      · obtain ⟨indexes, hcontents, hread⟩ := harray
        exact hread.mono fun fuel hvalues => readList_eq hcontents hvalues
    · rintro index c ⟨row, hrow, rfl, hinner, harray⟩
      apply eventually_succ
      filter_upwards [hinner, harray] with fuel hinner harray
      rw [readValue, readRef_row hrow, hinner, harray]
      rfl

theorem appendValues_makes (values : List (KIRValue S)) (h : valuesComplete values = true) :
    Makes rowEdges (appendValues values) (fun indexes _ => indexes.map (.value, ·))
      fun indexes c => ∀ᶠ fuel in atTop,
        indexes.mapM (fun index => readValue c fuel (some index)) = .ok values := by
  cases values with
  | nil => exact Makes.pure [] (fun _ => rfl) fun _ => Eventually.of_forall fun _ => rfl
  | cons value values =>
    simp only [valuesComplete, Bool.and_eq_true, Bool.not_eq_true'] at h
    have hvalue := (appendValue_appends value h.1.2).present h.1.1
    have hvalues := appendValues_makes values h.2
    rw [appendValues, ← bind_assoc]
    refine (hvalue.cons hvalues).mono ?_
    rintro indexes c ⟨index, rest, rfl, hread, hrest⟩
    filter_upwards [hread, hrest] with fuel hread hrest
    exact mapM_cons_ok hread hrest

end

theorem appendPattern_appends (pattern : Option (KIRPattern S)) :
    Appends (appendPattern pattern) .pattern pattern.isNone
      fun ref c => readPattern c ref = .ok pattern := by
  cases pattern with
  | none => exact Or.inl ⟨rfl, rfl, fun _ => rfl⟩
  | some pattern =>
    have hbinding := (appendBinding_appends pattern.resolvedBinding).makes
    refine Or.inr ⟨_, rfl, ?_⟩
    refine (Makes.node (k := NodeKind.pattern) (F := fun (row : MIRPattern S) c =>
      row.value = pattern.value ∧ readBinding c row.binding = .ok pattern.resolvedBinding)
      ?_).mono ?_
    · refine (hbinding _ _).bind fun binding => Builds.pure _ ?_
      rintro old c ⟨howned, -, hread⟩
      exact ⟨by simpa [Store.targets, rowEdges] using howned, by simp [Store.InRange, rowEdges],
        rfl, hread⟩
    · rintro index c ⟨row, hrow, hvalue, hread⟩
      rw [readPattern, readRef_row hrow, hread]
      show Except.ok (some (KIRPattern.mk row.value pattern.resolvedBinding)) = _
      rw [hvalue]

theorem appendCaptures_makes (captures : List (Option (KIRCapture S)))
    (h : captures.all Option.isSome = true) :
    Makes rowEdges (appendCaptures captures) (fun indexes _ => indexes.map (.capture, ·))
      fun indexes c => indexes.mapM (fun index => readCapture c (some index)) = .ok captures := by
  induction captures with
  | nil => exact Makes.pure [] (fun _ => rfl) fun _ => rfl
  | cons capture captures ih =>
    simp only [List.all_cons, Bool.and_eq_true] at h
    cases capture with
    | none => cases h.1
    | some capture =>
      have hbinding := (appendBinding_appends capture.binding).makes
      refine (Makes.cons (Makes.node (k := NodeKind.capture) (F := fun (row : MIRCapture) c =>
        readBinding c row.binding = .ok capture.binding) ?_) (ih h.2)).mono ?_
      · refine (hbinding _ _).bind fun binding => Builds.pure _ ?_
        rintro old c ⟨howned, -, hread⟩
        exact ⟨by simpa [Store.targets, rowEdges] using howned, by simp [Store.InRange, rowEdges],
          hread⟩
      · rintro indexes c ⟨index, rest, rfl, ⟨row, hrow, hread⟩, hrest⟩
        refine mapM_cons_ok ?_ hrest
        rw [readCapture, readRef_row hrow, hread]
        rfl

/-! ## Nodes -/

/-- From some bound on, the references of a list are read as its elements. -/
def ListReads {α : Type} (c : MIRTables S) (kind : NodeKind)
    (read : Nat → MIRRef → Except ArenaError α) (list : MIRNodeRefList) (values : List α) : Prop :=
  (c.contents kind list).isSome ∧ ∀ᶠ fuel in atTop, readList c kind (read fuel) list = .ok values

theorem listReads_of_listed {α : Type} {c : MIRTables S} {kind : NodeKind}
    {read : Nat → MIRRef → Except ArenaError α} {list : MIRNodeRefList} {values : List α}
    (h : ∃ indexes, c.contents kind list = some indexes ∧ ∀ᶠ fuel in atTop,
      indexes.mapM (fun index => read fuel (some index)) = .ok values) :
    ListReads c kind read list values := by
  refine ⟨isSome_of_listed h, ?_⟩
  obtain ⟨indexes, hcontents, hread⟩ := h
  exact hread.mono fun fuel hvalues => readList_eq hcontents hvalues

mutual

theorem appendExpression_appends (expression : KIRExpr S) (h : expression.complete = true) :
    Appends (appendExpression expression) .expression expression.isNil
      fun ref c => ∀ᶠ fuel in atTop, readExpression c fuel ref = .ok expression := by
  cases expression with
  | nil => exact Or.inl ⟨rfl, rfl, fun c => eventually_succ (Eventually.of_forall fun _ => rfl)⟩
  | node value left right operand base receiver callee lambda binding const args items mapKeys
      values =>
    simp only [KIRExpr.complete, Bool.and_eq_true] at h
    obtain ⟨⟨⟨⟨⟨⟨⟨⟨⟨⟨⟨hleft, hright⟩, hoperand⟩, hbase⟩, hreceiver⟩, hcallee⟩, hlambda⟩, hconst⟩,
      hargs⟩, hitems⟩, hmapKeys⟩, hvalues⟩ := h
    refine Or.inr ⟨_, rfl, ?_⟩
    refine (Makes.node (k := NodeKind.expression) (F := fun (row : MIRExpression S) c =>
      row.value = value ∧
      (∀ᶠ fuel in atTop, readExpression c fuel row.left = .ok left) ∧
      (∀ᶠ fuel in atTop, readExpression c fuel row.right = .ok right) ∧
      (∀ᶠ fuel in atTop, readExpression c fuel row.operand = .ok operand) ∧
      (∀ᶠ fuel in atTop, readExpression c fuel row.base = .ok base) ∧
      (∀ᶠ fuel in atTop, readExpression c fuel row.receiver = .ok receiver) ∧
      (∀ᶠ fuel in atTop, readExpression c fuel row.callee = .ok callee) ∧
      (∀ᶠ fuel in atTop, readFunction c fuel row.lambda = .ok lambda) ∧
      readBinding c row.binding = .ok binding ∧
      (∀ᶠ fuel in atTop, readValue c fuel row.const = .ok const) ∧
      ListReads c .expression (readExpression c) row.args args ∧
      ListReads c .expression (readExpression c) row.items items ∧
      ListReads c .expression (readExpression c) row.mapKeys mapKeys ∧
      ListReads c .expression (readExpression c) row.values values) ?_).mono ?_
    · refine ((appendExpression_appends left hleft).makes _ _).bind fun left => ?_
      refine ((appendExpression_appends right hright).makes _ _).bind fun right => ?_
      refine ((appendExpression_appends operand hoperand).makes _ _).bind fun operand => ?_
      refine ((appendExpression_appends base hbase).makes _ _).bind fun base => ?_
      refine ((appendExpression_appends receiver hreceiver).makes _ _).bind fun receiver => ?_
      refine ((appendExpression_appends callee hcallee).makes _ _).bind fun callee => ?_
      refine ((appendFunction_appends lambda hlambda).makes _ _).bind fun lambda => ?_
      refine ((appendBinding_appends binding).makes _ _).bind fun binding => ?_
      refine ((appendValue_appends const hconst).makes _ _).bind fun const => ?_
      refine ((appendExpressions_makes args hargs).list _ _).bind fun args => ?_
      refine ((appendExpressions_makes items hitems).list _ _).bind fun items => ?_
      refine ((appendExpressions_makes mapKeys hmapKeys).list _ _).bind fun mapKeys => ?_
      refine ((appendExpressions_makes values hvalues).list _ _).bind fun values => ?_
      apply Builds.pure
      rintro old c ⟨howned, ⟨⟨⟨⟨⟨⟨⟨⟨⟨⟨⟨⟨-, hleft⟩, hright⟩, hoperand⟩, hbase⟩, hreceiver⟩, hcallee⟩,
        hlambda⟩, hbinding⟩, hconst⟩, hargs⟩, hitems⟩, hmapKeys⟩, hvalues⟩
      have hargs := listReads_of_listed hargs
      have hitems := listReads_of_listed hitems
      have hmapKeys := listReads_of_listed hmapKeys
      have hvalues := listReads_of_listed hvalues
      refine ⟨by simpa [Store.targets, rowEdges] using howned, ?_, rfl, hleft, hright, hoperand,
        hbase, hreceiver, hcallee, hlambda, hbinding, hconst, hargs, hitems, hmapKeys, hvalues⟩
      simp [Store.InRange, rowEdges, hargs.1, hitems.1, hmapKeys.1, hvalues.1]
    · rintro index c ⟨row, hrow, rfl, hleft, hright, hoperand, hbase, hreceiver, hcallee, hlambda,
        hbinding, hconst, hargs, hitems, hmapKeys, hvalues⟩
      apply eventually_succ
      filter_upwards [hleft, hright, hoperand, hbase, hreceiver, hcallee, hlambda, hconst, hargs.2,
        hitems.2, hmapKeys.2, hvalues.2] with fuel hleft hright hoperand hbase hreceiver hcallee
        hlambda hconst hargs hitems hmapKeys hvalues
      rw [readExpression, readRef_row hrow, hleft, hright, hoperand, hbase, hreceiver, hcallee,
        hlambda, hbinding, hconst, hargs, hitems, hmapKeys, hvalues]
      rfl

theorem appendExpressions_makes (expressions : List (KIRExpr S))
    (h : exprsComplete expressions = true) :
    Makes rowEdges (appendExpressions expressions) (fun indexes _ => indexes.map (.expression, ·))
      fun indexes c => ∀ᶠ fuel in atTop,
        indexes.mapM (fun index => readExpression c fuel (some index)) = .ok expressions := by
  cases expressions with
  | nil => exact Makes.pure [] (fun _ => rfl) fun _ => Eventually.of_forall fun _ => rfl
  | cons expression expressions =>
    simp only [exprsComplete, Bool.and_eq_true, Bool.not_eq_true'] at h
    have hexpression := (appendExpression_appends expression h.1.2).present h.1.1
    have hexpressions := appendExpressions_makes expressions h.2
    rw [appendExpressions, ← bind_assoc]
    refine (hexpression.cons hexpressions).mono ?_
    rintro indexes c ⟨index, rest, rfl, hread, hrest⟩
    filter_upwards [hread, hrest] with fuel hread hrest
    exact mapM_cons_ok hread hrest

theorem appendStatement_appends (statement : KIRStmt S) (h : statement.complete = true) :
    Appends (appendStatement statement) .statement statement.isNil
      fun ref c => ∀ᶠ fuel in atTop, readStatement c fuel ref = .ok statement := by
  cases statement with
  | nil => exact Or.inl ⟨rfl, rfl, fun c => eventually_succ (Eventually.of_forall fun _ => rfl)⟩
  | node value binding init expr target valueExpr cond iter ret scrutinee thenBody elseBody body
      arms =>
    simp only [KIRStmt.complete, Bool.and_eq_true] at h
    obtain ⟨⟨⟨⟨⟨⟨⟨⟨⟨⟨⟨hinit, hexpr⟩, htarget⟩, hvalueExpr⟩, hcond⟩, hiter⟩, hret⟩, hscrutinee⟩,
      hthen⟩, helse⟩, hbody⟩, harms⟩ := h
    refine Or.inr ⟨_, rfl, ?_⟩
    refine (Makes.node (k := NodeKind.statement) (F := fun (row : MIRStatement S) c =>
      row.value = value ∧ readBinding c row.binding = .ok binding ∧
      (∀ᶠ fuel in atTop, readExpression c fuel row.init = .ok init) ∧
      (∀ᶠ fuel in atTop, readExpression c fuel row.expr = .ok expr) ∧
      (∀ᶠ fuel in atTop, readExpression c fuel row.target = .ok target) ∧
      (∀ᶠ fuel in atTop, readExpression c fuel row.valueExpr = .ok valueExpr) ∧
      (∀ᶠ fuel in atTop, readExpression c fuel row.cond = .ok cond) ∧
      (∀ᶠ fuel in atTop, readExpression c fuel row.iter = .ok iter) ∧
      (∀ᶠ fuel in atTop, readExpression c fuel row.ret = .ok ret) ∧
      (∀ᶠ fuel in atTop, readExpression c fuel row.scrutinee = .ok scrutinee) ∧
      ListReads c .statement (readStatement c) row.thenBody thenBody ∧
      ListReads c .statement (readStatement c) row.elseBody elseBody ∧
      ListReads c .statement (readStatement c) row.body body ∧
      ListReads c .arm (fun fuel => readArm c (readStatement c fuel)) row.arms arms) ?_).mono ?_
    · refine ((appendBinding_appends binding).makes _ _).bind fun binding => ?_
      refine ((appendExpression_appends init hinit).makes _ _).bind fun init => ?_
      refine ((appendExpression_appends expr hexpr).makes _ _).bind fun expr => ?_
      refine ((appendExpression_appends target htarget).makes _ _).bind fun target => ?_
      refine ((appendExpression_appends valueExpr hvalueExpr).makes _ _).bind fun valueExpr => ?_
      refine ((appendExpression_appends cond hcond).makes _ _).bind fun cond => ?_
      refine ((appendExpression_appends iter hiter).makes _ _).bind fun iter => ?_
      refine ((appendExpression_appends ret hret).makes _ _).bind fun ret => ?_
      refine ((appendExpression_appends scrutinee hscrutinee).makes _ _).bind fun scrutinee => ?_
      refine ((appendStatements_makes thenBody hthen).list _ _).bind fun thenBody => ?_
      refine ((appendStatements_makes elseBody helse).list _ _).bind fun elseBody => ?_
      refine ((appendStatements_makes body hbody).list _ _).bind fun body => ?_
      refine ((appendArms_makes arms harms).list _ _).bind fun armList => ?_
      apply Builds.pure
      rintro old c ⟨howned, ⟨⟨⟨⟨⟨⟨⟨⟨⟨⟨⟨⟨-, hbinding⟩, hinit⟩, hexpr⟩, htarget⟩, hvalueExpr⟩, hcond⟩,
        hiter⟩, hret⟩, hscrutinee⟩, hthen⟩, helse⟩, hbody⟩, harms⟩
      have hthen := listReads_of_listed hthen
      have helse := listReads_of_listed helse
      have hbody := listReads_of_listed hbody
      have harms : ListReads c .arm (fun fuel => readArm c (readStatement c fuel)) armList arms :=
        listReads_of_listed harms
      refine ⟨by simpa [Store.targets, rowEdges] using howned, ?_, rfl, hbinding, hinit, hexpr,
        htarget, hvalueExpr, hcond, hiter, hret, hscrutinee, hthen, helse, hbody, harms⟩
      simp [Store.InRange, rowEdges, hthen.1, helse.1, hbody.1, harms.1]
    · rintro index c ⟨row, hrow, rfl, hbinding, hinit, hexpr, htarget, hvalueExpr, hcond, hiter,
        hret, hscrutinee, hthen, helse, hbody, harms⟩
      apply eventually_succ
      filter_upwards [hinit, hexpr, htarget, hvalueExpr, hcond, hiter, hret, hscrutinee, hthen.2,
        helse.2, hbody.2, harms.2] with fuel hinit hexpr htarget hvalueExpr hcond hiter hret
        hscrutinee hthen helse hbody harms
      rw [readStatement, readRef_row hrow, hbinding, hinit, hexpr, htarget, hvalueExpr, hcond,
        hiter, hret, hscrutinee, hthen, helse, hbody, harms]
      rfl

theorem appendStatements_makes (statements : List (KIRStmt S))
    (h : stmtsComplete statements = true) :
    Makes rowEdges (appendStatements statements) (fun indexes _ => indexes.map (.statement, ·))
      fun indexes c => ∀ᶠ fuel in atTop,
        indexes.mapM (fun index => readStatement c fuel (some index)) = .ok statements := by
  cases statements with
  | nil => exact Makes.pure [] (fun _ => rfl) fun _ => Eventually.of_forall fun _ => rfl
  | cons statement statements =>
    simp only [stmtsComplete, Bool.and_eq_true, Bool.not_eq_true'] at h
    have hstatement := (appendStatement_appends statement h.1.2).present h.1.1
    have hstatements := appendStatements_makes statements h.2
    rw [appendStatements, ← bind_assoc]
    refine (hstatement.cons hstatements).mono ?_
    rintro indexes c ⟨index, rest, rfl, hread, hrest⟩
    filter_upwards [hread, hrest] with fuel hread hrest
    exact mapM_cons_ok hread hrest

theorem appendFunction_appends (function : KIRFunction S) (h : function.complete = true) :
    Appends (appendFunction function) .function function.isNil
      fun ref c => ∀ᶠ fuel in atTop, readFunction c fuel ref = .ok function := by
  cases function with
  | nil => exact Or.inl ⟨rfl, rfl, fun c => eventually_succ (Eventually.of_forall fun _ => rfl)⟩
  | node value body params captures =>
    simp only [KIRFunction.complete, Bool.and_eq_true] at h
    obtain ⟨⟨hbody, hparams⟩, hcaptures⟩ := h
    refine Or.inr ⟨_, rfl, ?_⟩
    refine (Makes.node (k := NodeKind.function) (F := fun (row : MIRFunction S) c =>
      row.value = value ∧
      ListReads c .statement (readStatement c) row.body body ∧
      ListReads c .parameter (fun fuel => readParameter c (readExpression c fuel)) row.params
        params ∧
      ListReads c .capture (fun _ => readCapture c) row.captures captures) ?_).mono ?_
    · refine ((appendStatements_makes body hbody).list _ _).bind fun body => ?_
      refine ((appendParameters_makes params hparams).list _ _).bind fun paramList => ?_
      refine ((appendCaptures_makes captures hcaptures).list _ _).bind fun captureList => ?_
      apply Builds.pure
      rintro old c ⟨howned, ⟨⟨-, hbody⟩, hparams⟩, hcaptures⟩
      have hbody := listReads_of_listed hbody
      have hparams : ListReads c .parameter (fun fuel => readParameter c (readExpression c fuel))
          paramList params := listReads_of_listed hparams
      obtain ⟨indexes, hcontents, hread⟩ := hcaptures
      have hcaptures : ListReads c .capture (fun _ => readCapture c) captureList captures :=
        listReads_of_listed ⟨indexes, hcontents, Eventually.of_forall fun _ => hread⟩
      refine ⟨by simpa [Store.targets, rowEdges] using howned, ?_, rfl, hbody, hparams, hcaptures⟩
      simp [Store.InRange, rowEdges, hbody.1, hparams.1, hcaptures.1]
    · rintro index c ⟨row, hrow, rfl, hbody, hparams, hcaptures⟩
      apply eventually_succ
      filter_upwards [hbody.2, hparams.2, hcaptures.2] with fuel hbody hparams hcaptures
      rw [readFunction, readRef_row hrow, hbody, hparams, hcaptures]
      rfl

theorem appendParameters_makes (params : List (KIRParam S)) (h : paramsComplete params = true) :
    Makes rowEdges (appendParameters params) (fun indexes _ => indexes.map (.parameter, ·))
      fun indexes c => ∀ᶠ fuel in atTop,
        indexes.mapM (fun index => readParameter c (readExpression c fuel) (some index)) =
          .ok params := by
  cases params with
  | nil => exact Makes.pure [] (fun _ => rfl) fun _ => Eventually.of_forall fun _ => rfl
  | cons param params =>
    cases param with
    | nil => cases h
    | node value default binding =>
      simp only [paramsComplete, Bool.and_eq_true] at h
      have hdefault := (appendExpression_appends default h.1).makes
      have hbinding := (appendBinding_appends binding).makes
      have hparams := appendParameters_makes params h.2
      refine (Makes.cons (Makes.node (k := NodeKind.parameter) (F := fun (row : MIRParameter S) c =>
        row.value = value ∧ (∀ᶠ fuel in atTop, readExpression c fuel row.default = .ok default) ∧
        readBinding c row.binding = .ok binding) ?_) hparams).mono ?_
      · refine (hdefault _ _).bind fun default => (hbinding _ _).bind fun binding => ?_
        apply Builds.pure
        rintro old c ⟨howned, ⟨-, hdefault⟩, hbinding⟩
        exact ⟨by simpa [Store.targets, rowEdges] using howned, by simp [Store.InRange, rowEdges],
          rfl, hdefault, hbinding⟩
      · rintro indexes c ⟨index, rest, rfl, ⟨row, hrow, rfl, hdefault, hbinding⟩, hrest⟩
        filter_upwards [hdefault, hrest] with fuel hdefault hrest
        refine mapM_cons_ok ?_ hrest
        rw [readParameter, readRef_row hrow, hdefault, hbinding]
        rfl

theorem appendArms_makes (arms : List (KIRArm S)) (h : armsComplete arms = true) :
    Makes rowEdges (appendArms arms) (fun indexes _ => indexes.map (.arm, ·))
      fun indexes c => ∀ᶠ fuel in atTop,
        indexes.mapM (fun index => readArm c (readStatement c fuel) (some index)) = .ok arms := by
  cases arms with
  | nil => exact Makes.pure [] (fun _ => rfl) fun _ => Eventually.of_forall fun _ => rfl
  | cons arm arms =>
    cases arm with
    | nil => cases h
    | node value pattern body =>
      simp only [armsComplete, Bool.and_eq_true] at h
      have hpattern := (appendPattern_appends pattern).makes
      have hbody := (appendStatements_makes body h.1).list
      have harms := appendArms_makes arms h.2
      refine (Makes.cons (Makes.node (k := NodeKind.arm) (F := fun (row : MIRArm S) c =>
        row.value = value ∧ readPattern c row.pattern = .ok pattern ∧
        ListReads c .statement (readStatement c) row.body body) ?_) harms).mono ?_
      · refine (hpattern _ _).bind fun pattern => (hbody _ _).bind fun body => ?_
        apply Builds.pure
        rintro old c ⟨howned, ⟨-, hpattern⟩, hbody⟩
        have hbody := listReads_of_listed hbody
        exact ⟨by simpa [Store.targets, rowEdges] using howned,
          by simp [Store.InRange, rowEdges, hbody.1], rfl, hpattern, hbody⟩
      · rintro indexes c ⟨index, rest, rfl, ⟨row, hrow, rfl, hpattern, hbody⟩, hrest⟩
        filter_upwards [hbody.2, hrest] with fuel hbody hrest
        refine mapM_cons_ok ?_ hrest
        rw [readArm, readRef_row hrow, hpattern, hbody]
        rfl

end

end Kryndel.Mir
