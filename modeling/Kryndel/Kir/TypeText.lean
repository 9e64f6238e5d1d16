import Kryndel.Checker.TypeEnv
import Kryndel.Kir.TypeExpression
import Kryndel.Systems.Assoc

/-!
# Types as KIR writes them

KIR has the printed form of a type (`Type.String`) where the checker has the type. A type is
printed as the specification that it is written with, a name with arguments or a function type,
so that types that their names denote are known from how they print.
-/

namespace Kryndel

open List

/-! ## Specifications of types -/

/-- The name that a type is written with. A function type has none. -/
def Ty.headName : Ty → String
  | .error => "<error>"
  | .unknown => "<unknown>"
  | .void => "Void"
  | .nil => "Nil"
  | .int => "Int"
  | .uint bits => "UInt" ++ toString bits.toNat
  | .float => "Float"
  | .bool => "Bool"
  | .string => "String"
  | .bytes => "Bytes"
  | .array _ => "Array"
  | .option _ => "Option"
  | .result _ _ => "Result"
  | .channel _ => "Channel"
  | .thread _ => "Thread"
  | .struct name _ | .enum name | .generic name _ => name
  | .map _ _ => "Map"
  | .set _ => "Set"
  | .json => "Json"
  | .webSocket => "WebSocket"
  | .actor _ => "Actor"
  | .shared _ => "Shared"
  | .taskGroup => "TaskGroup"
  | .regex => "Regex"
  | .random => "Random"
  | .sqlite => "SQLite"
  | .tcpSocket => "TcpSocket"
  | .tcpListener => "TcpListener"
  | .udpSocket => "UdpSocket"
  | .ffiLibrary => "FFILibrary"
  | .ffiSymbol => "FFISymbol"
  | .ffiBuffer => "FFIBuffer"
  | .function _ _ => ""

/-- Is a type a function type? -/
def Ty.isFunction : Ty → Bool
  | .function _ _ => true
  | _ => false

/-- The head of a type: its name, or that it is a function type. -/
def Ty.label (t : Ty) : KIRTypeLabel where
  function := t.isFunction
  name := t.headName

/-- The specification that a type is written with. -/
def Ty.spec (t : Ty) : KIRTypeSpec :=
  .node t.label (t.arguments.attach.map fun a => a.1.spec)
termination_by sizeOf t
decreasing_by exact Ty.sizeOf_argument a.2

theorem spec_eq (t : Ty) : t.spec = .node t.label (t.arguments.map Ty.spec) := by
  rw [Ty.spec, map_attach_eq_pmap, pmap_eq_map]

/-! ## Printing -/

theorem texts_eq_map (ts : List Ty) : Ty.texts ts = ts.map Ty.text := by
  induction ts with
  | nil => rw [Ty.texts, map_nil]
  | cons t ts ih => rw [Ty.texts, ih, map_cons]

theorem toList_intercalate (s : String) (ss : List String) :
    (String.intercalate ", " (s :: ss)).toList =
      s.toList ++ ss.flatMap fun s => ',' :: ' ' :: s.toList := by
  induction ss generalizing s with
  | nil => simp
  | cons t ss ih => simp [String.intercalate_cons_cons, ih, String.toList_append]

theorem moreArgumentChars_eq (cs : List KIRTypeSpec) :
    moreArgumentChars cs =
      (cs.flatMap fun c => ',' :: ' ' :: kirTypeSpecChars c) ++ [']'] := by
  induction cs with
  | nil => rw [moreArgumentChars, flatMap_nil, nil_append]
  | cons c cs ih => rw [moreArgumentChars, ih]; simp

theorem functionChars_eq (p : KIRTypeSpec) (ps : List KIRTypeSpec) (ret : KIRTypeSpec) :
    functionChars (p :: (ps ++ [ret])) =
      kirTypeSpecChars p ++ ((ps.flatMap fun c => ',' :: ' ' :: kirTypeSpecChars c) ++
        functionChars [ret]) := by
  induction ps generalizing p with
  | nil => simp [functionChars]
  | cons q ps ih =>
    have hstep : functionChars (p :: q :: (ps ++ [ret])) = kirTypeSpecChars p ++
        ((if (ps ++ [ret]).isEmpty then [] else [',', ' ']) ++
          functionChars (q :: (ps ++ [ret]))) := by
      rw [functionChars]
    rw [cons_append, hstep, ih q]
    simp

theorem text_eq_spec (t : Ty) : t.text.toList = kirTypeSpecChars t.spec := by
  have hmap : ∀ ts : List Ty, (∀ a ∈ ts, a.text.toList = kirTypeSpecChars a.spec) →
      ((ts.map Ty.text).flatMap fun s => ',' :: ' ' :: s.toList) =
        (ts.map Ty.spec).flatMap fun c => ',' :: ' ' :: kirTypeSpecChars c := by
    intro ts hts
    rw [flatMap_map, flatMap_map]
    exact flatMap_congr fun a ha => by rw [hts a ha]
  have harguments : ∀ a ∈ t.arguments, a.text.toList = kirTypeSpecChars a.spec := by
    intro a ha
    have hsize := Ty.sizeOf_argument ha
    exact text_eq_spec a
  rw [spec_eq]
  cases t with
  | array a | option a | channel a | thread a | set a | actor a | shared a =>
    have ha := harguments a (by simp [Ty.arguments])
    simp [Ty.text, Ty.arguments, Ty.label, Ty.isFunction, Ty.headName, kirTypeSpecChars,
      argumentChars, moreArgumentChars, ha]
  | result a b | map a b =>
    have ha := harguments a (by simp [Ty.arguments])
    have hb := harguments b (by simp [Ty.arguments])
    simp [Ty.text, Ty.arguments, Ty.label, Ty.isFunction, Ty.headName, kirTypeSpecChars,
      argumentChars, moreArgumentChars, ha, hb]
  | struct name params =>
    cases params with
    | nil => simp [Ty.text, Ty.arguments, Ty.label, Ty.isFunction, Ty.headName, kirTypeSpecChars,
        argumentChars]
    | cons p ps =>
      have hp := harguments p (by simp [Ty.arguments])
      have hps := hmap ps fun a ha => harguments a (by simp [Ty.arguments, ha])
      simp only [Ty.text, texts_eq_map, Ty.arguments, Ty.label, Ty.isFunction, Ty.headName,
        kirTypeSpecChars, Bool.false_eq_true, if_false, map_cons, argumentChars,
        moreArgumentChars_eq, String.toList_append, toList_intercalate, hp, hps]
      simp
  | function params ret =>
    have hret := harguments ret (by simp [Ty.arguments])
    cases params with
    | nil => simp [Ty.text, Ty.arguments, Ty.label, Ty.isFunction, kirTypeSpecChars,
        functionChars, Ty.texts, hret]
    | cons p ps =>
      have hp := harguments p (by simp [Ty.arguments])
      have hps := hmap ps fun a ha => harguments a (by simp [Ty.arguments, ha])
      have hchars := functionChars_eq p.spec (ps.map Ty.spec) ret.spec
      simp only [Ty.text, texts_eq_map, Ty.arguments, Ty.label, Ty.isFunction, kirTypeSpecChars,
        if_true, map_append, map_cons, map_nil, cons_append,
        String.toList_append, toList_intercalate, hp, hps, hret, hchars]
      simp [functionChars]
  | _ => simp [Ty.text, Ty.arguments, Ty.label, Ty.isFunction, Ty.headName, kirTypeSpecChars,
      argumentChars]
termination_by sizeOf t

/-- Texts with commas between them. -/
def joined : List (List Char) → List Char
  | [] => []
  | x :: xs => x ++ xs.flatMap fun y => ',' :: ' ' :: y

theorem joined_map_spec (ts : List Ty) (t : Ty) :
    joined ((t :: ts).map fun a => a.text.toList) =
      kirTypeSpecChars t.spec ++
        (ts.map Ty.spec).flatMap fun c => ',' :: ' ' :: kirTypeSpecChars c := by
  rw [map_cons, joined, text_eq_spec, flatMap_map, flatMap_map]
  congr 1
  exact flatMap_congr fun a _ => by rw [text_eq_spec]

theorem text_of_arguments {t : Ty} (h : t.isFunction = false) (hne : t.arguments ≠ []) :
    t.text.toList = t.headName.toList ++
      '[' :: (joined (t.arguments.map fun a => a.text.toList) ++ [']']) := by
  obtain ⟨a, as, harguments⟩ := exists_cons_of_ne_nil hne
  rw [text_eq_spec, spec_eq, harguments, joined_map_spec, kirTypeSpecChars]
  simp [Ty.label, h, argumentChars, moreArgumentChars_eq]

theorem text_of_no_arguments {t : Ty} (h : t.isFunction = false) (hnil : t.arguments = []) :
    t.text.toList = t.headName.toList := by
  rw [text_eq_spec, spec_eq, hnil, map_nil, kirTypeSpecChars]
  simp [Ty.label, h, argumentChars]

theorem text_of_function (params : List Ty) (ret : Ty) :
    (Ty.function params ret).text.toList =
      'f' :: 'n' :: '(' :: (joined (params.map fun a => a.text.toList) ++
        ')' :: ' ' :: '-' :: '>' :: ' ' :: ret.text.toList) := by
  rw [text_eq_spec, spec_eq, Ty.arguments, map_append, kirTypeSpecChars]
  cases params with
  | nil => simp [Ty.label, Ty.isFunction, functionChars, joined, text_eq_spec]
  | cons p ps =>
    have hchars := functionChars_eq p.spec (ps.map Ty.spec) ret.spec
    rw [joined_map_spec, map_cons, cons_append, map_singleton, hchars]
    simp [Ty.label, Ty.isFunction, functionChars, text_eq_spec]

/-! ## Well-formed types -/

/-- What a name with arguments denotes, as `resolveSpec` tells it: a built-in type, a type
    parameter in scope, a container, a struct or an enum. -/
def TypeEnv.denoted (env : TypeEnv) (scope : TypeParams) (name : String) (arguments : List Ty) :
    Option Ty :=
  match (if arguments.isEmpty then (builtinType name <|> scope.lookup name) else none) with
  | some t => some t
  | none =>
      if containerArity name = some arguments.length then containerType name arguments
      else if name == "TaskGroup" then some .taskGroup
      else
        match env.structDecl name with
        | some decl =>
            if arguments.length = decl.typeParams.length then some (.struct decl.name arguments)
            else none
        | none => if arguments.isEmpty then (env.enumDecl name).map (.enum ·.name) else none

/-- A type is what its name denotes, and so are the types in it. -/
inductive WellFormed (env : TypeEnv) (scope : TypeParams) : Ty → Prop where
  | function (params : List Ty) (ret : Ty) (hparams : ∀ p ∈ params, WellFormed env scope p)
      (hret : WellFormed env scope ret) : WellFormed env scope (.function params ret)
  | named (t : Ty) (hname : t.isFunction = false)
      (hdenoted : env.denoted scope t.headName t.arguments = some t)
      (harguments : ∀ a ∈ t.arguments, WellFormed env scope a) : WellFormed env scope t

/-- The names of a program have no signs in them. -/
structure PlainNames (env : TypeEnv) (scope : TypeParams) : Prop where
  structs : ∀ decl ∈ env.structs, PlainName decl.name.toList
  enums : ∀ decl ∈ env.enums, PlainName decl.name.toList
  scope : ∀ entry ∈ scope, PlainName entry.1.toList

section Names

variable {env : TypeEnv} {scope : TypeParams} {t u : Ty}

variable {name : String}

theorem plainName_builtin (h : builtinType name = some t) :
    PlainName name.toList := by
  unfold builtinType at h
  split at h <;> first | cases h; done | decide

theorem plainName_container {n : Nat} (h : containerArity name = some n) :
    PlainName name.toList := by
  unfold containerArity at h
  split at h <;> first | cases h; done | decide

theorem enumDecl_name {decl : EnumDecl} (h : env.enumDecl name = some decl) :
    decl.name = name := by
  have hname := find?_some h
  exact beq_iff_eq.mp hname

theorem plainName_denoted (hnames : PlainNames env scope) {arguments : List Ty}
    (h : env.denoted scope name arguments = some t) : PlainName name.toList := by
  unfold TypeEnv.denoted at h
  split at h
  · rename_i t' hfound
    split at hfound
    · cases hbuiltin : builtinType name with
      | some t'' => exact plainName_builtin hbuiltin
      | none =>
        rw [hbuiltin] at hfound
        exact hnames.scope (name, t') (Assoc.mem_of_lookup hfound)
    · cases hfound
  · split at h
    · rename_i harity
      exact plainName_container harity
    · split at h
      · rename_i htask
        rw [beq_iff_eq.mp htask]
        decide
      · split at h
        · rename_i decl hdecl
          rw [← structDecl_name hdecl]
          exact hnames.structs decl (mem_of_find?_eq_some hdecl)
        · split at h
          · obtain ⟨decl, hdecl, -⟩ := Option.map_eq_some_iff.mp h
            rw [← enumDecl_name hdecl]
            exact hnames.enums decl (mem_of_find?_eq_some hdecl)
          · cases h

theorem WellFormed.arguments (h : WellFormed env scope t) :
    ∀ a ∈ t.arguments, WellFormed env scope a := by
  cases h with
  | function params ret hparams hret =>
    intro a ha
    rcases mem_append.mp ha with ha | ha
    · exact hparams a ha
    · rw [mem_singleton.mp ha]
      exact hret
  | named _ _ _ harguments => exact harguments

theorem WellFormed.denoted (h : WellFormed env scope t) (hname : t.isFunction = false) :
    env.denoted scope t.headName t.arguments = some t := by
  cases h with
  | function => cases hname
  | named _ _ hdenoted _ => exact hdenoted

theorem arguments_of_function (h : t.isFunction = true) : ∃ params ret,
    t = .function params ret := by
  cases t with
  | function params ret => exact ⟨params, ret, rfl⟩
  | _ => cases h

theorem WellFormed.named_spec {t : Ty} (hnames : PlainNames env scope)
    (h : WellFormed env scope t) : Named PlainName t.spec := by
  have hall : ∀ ts : List Ty, (∀ a ∈ ts, Named PlainName a.spec) →
      AllNamed PlainName (ts.map Ty.spec) := by
    intro ts hts
    induction ts with
    | nil => trivial
    | cons a ts ih =>
      exact ⟨hts a mem_cons_self, ih fun b hb => hts b (mem_cons_of_mem _ hb)⟩
  have harguments : ∀ a ∈ t.arguments, Named PlainName a.spec := by
    intro a ha
    have hsize := Ty.sizeOf_argument ha
    exact (h.arguments a ha).named_spec hnames
  rw [spec_eq]
  refine ⟨?_, hall _ harguments⟩
  cases hfunction : t.isFunction with
  | true =>
    obtain ⟨params, ret, rfl⟩ := arguments_of_function hfunction
    exact ⟨rfl, by simp [Ty.arguments]⟩
  | false =>
    simp only [Ty.label, hfunction, Bool.false_eq_true, if_false]
    exact plainName_denoted hnames (h.denoted hfunction)
termination_by sizeOf t

theorem WellFormed.spec_injective {t u : Ty} (ht : WellFormed env scope t)
    (hu : WellFormed env scope u) (h : t.spec = u.spec) : t = u := by
  rw [spec_eq, spec_eq, TermGraph.Tree.node.injEq] at h
  obtain ⟨hlabel, hspecs⟩ := h
  have harguments : ∀ ts us : List Ty, (∀ a ∈ ts, ∀ b ∈ us, a.spec = b.spec → a = b) →
      ts.map Ty.spec = us.map Ty.spec → ts = us := by
    intro ts
    induction ts with
    | nil =>
      intro us _ hmap
      exact (map_eq_nil_iff.mp hmap.symm).symm
    | cons a ts ih =>
      intro us hinj hmap
      cases us with
      | nil => cases hmap
      | cons b us =>
        rw [map_cons, map_cons, List.cons.injEq] at hmap
        rw [hinj a mem_cons_self b mem_cons_self hmap.1, ih us ?_ hmap.2]
        exact fun a ha b hb => hinj a (mem_cons_of_mem _ ha) b (mem_cons_of_mem _ hb)
  have hsame : t.arguments = u.arguments := by
    refine harguments _ _ (fun a ha b hb hab => ?_) hspecs
    have hsize := Ty.sizeOf_argument ha
    exact (ht.arguments a ha).spec_injective (hu.arguments b hb) hab
  have hkind : t.isFunction = u.isFunction := congrArg KIRTypeLabel.function hlabel
  have hname : t.headName = u.headName := congrArg KIRTypeLabel.name hlabel
  cases hfunction : t.isFunction with
  | true =>
    obtain ⟨params, ret, rfl⟩ := arguments_of_function hfunction
    obtain ⟨params', ret', rfl⟩ := arguments_of_function (hkind ▸ hfunction)
    obtain ⟨hparams, hret⟩ := append_inj' hsame rfl
    rw [hparams, singleton_inj.mp hret]
  | false =>
    have hleft := ht.denoted hfunction
    rw [hname, hsame, hu.denoted (hkind ▸ hfunction)] at hleft
    exact (Option.some.inj hleft).symm
termination_by sizeOf t

theorem WellFormed.text_injective (hnames : PlainNames env scope) (ht : WellFormed env scope t)
    (hu : WellFormed env scope u) (h : t.text = u.text) : t = u := by
  refine ht.spec_injective hu ?_
  have hchars : kirTypeSpecChars t.spec ++ [] = kirTypeSpecChars u.spec ++ [] := by
    rw [← text_eq_spec, ← text_eq_spec, h]
  exact (kirTypeSpecChars_cancel (ht.named_spec hnames) (hu.named_spec hnames) follows_nil
    follows_nil hchars).1

end Names

end Kryndel
