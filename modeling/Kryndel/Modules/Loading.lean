import Kryndel.Files.Reachable
import Kryndel.Modules.Loader
import Kryndel.Systems.Assoc
import Kryndel.Worklist.DepthFirst

/-!
# Loading as a walk

The modules that a loader comes upon form a graph, of which only a finite part is reachable from
a module. `load` is a depth-first walk through it: it finds an order in which modules come behind
what they import, or a cycle, or a module about which something is wrong.
-/

namespace Kryndel

open Relation DepthFirst List

namespace ModuleLoader

variable (l : ModuleLoader)

/-! ## The graph of modules -/

/-- A module imports another one. -/
def Imports (a b : Path) : Prop :=
  within l.host l.root a = true ∧ ∃ p imp, l.readModule a = .ok p ∧ imp ∈ p.imports ∧
    l.checkImport a imp = .ok b

/-- Something is wrong about a module or about one of its imports. -/
def Faulty (a : Path) (e : LoadError) : Prop :=
  (within l.host l.root a = false ∧ e = .escapes a) ∨
    within l.host l.root a = true ∧ (l.readModule a = .error e ∨
      ∃ p imp, l.readModule a = .ok p ∧ imp ∈ p.imports ∧ l.checkImport a imp = .error e)

/-- A module is reachable from another one. -/
def Reachable (a b : Path) : Prop :=
  ReflTransGen l.Imports a b

/-- A module as a node of the walk. -/
def expand (path : Path) : Except LoadError (List (Except LoadError Path)) :=
  if !within l.host l.root path then .error (.escapes path)
  else
    match l.readModule path with
    | .error e => .error e
    | .ok p => .ok (p.imports.map (l.checkImport path))

variable {l} {a b path : Path} {e : LoadError}

theorem expand_eq {p : SourceModule} (hwithin : within l.host l.root path = true)
    (hread : l.readModule path = .ok p) :
    l.expand path = .ok (p.imports.map (l.checkImport path)) := by
  rw [expand, hwithin, hread]
  rfl

theorem edge_iff : Edge l.expand a b ↔ l.Imports a b := by
  unfold Edge Imports expand
  cases hwithin : within l.host l.root a with
  | false => simp
  | true =>
    cases hread : l.readModule a with
    | error e => simp
    | ok p => simp [eq_comm]

theorem faulty_iff : DepthFirst.Faulty l.expand a e ↔ l.Faulty a e := by
  unfold DepthFirst.Faulty Faulty expand
  cases hwithin : within l.host l.root a with
  | false => simp [eq_comm]
  | true =>
    cases hread : l.readModule a with
    | error e => simp
    | ok p => simp [eq_comm]

theorem edge_eq : Edge l.expand = l.Imports := by
  funext a b
  exact propext edge_iff

/-! ## Loading as a walk -/

/-- What the end of a walk is to the loader. -/
def stopError : Halt Path LoadError → LoadError
  | .cycle path => .cycle path
  | .failed e => e
  | .cutOff => .cutOff

/-- An error that is about a module or an import by itself. -/
def Own : LoadError → Prop
  | .cycle _ => False
  | .cutOff => False
  | _ => True

variable {imp : ImportDecl}

theorem own_checkImport (h : l.checkImport a imp = .error e) : Own e := by
  simp only [checkImport] at h
  split at h
  · cases h
    trivial
  · split at h
    · cases h
      trivial
    · split at h
      · cases h
        trivial
      · split at h <;> cases h
        trivial

theorem own_readSource (h : l.readSource a = .error e) : Own e := by
  rw [readSource] at h
  split at h
  · cases h
    trivial
  · split at h
    · cases h
      trivial
    · split at h <;> cases h
      trivial

theorem own_parseModule {src : ModuleSource} (h : l.parseModule a src = .error e) : Own e := by
  rw [parseModule] at h
  split at h <;> cases h
  trivial

theorem own_readModule (h : l.readModule a = .error e) : Own e := by
  rw [readModule] at h
  split at h
  · exact own_parseModule h
  · cases hsource : l.readSource a with
    | error e' =>
      rw [hsource] at h
      cases h
      exact own_readSource hsource
    | ok src =>
      rw [hsource] at h
      exact own_parseModule h

theorem Faulty.own (h : l.Faulty a e) : Own e := by
  rcases h with ⟨-, rfl⟩ | ⟨-, h | ⟨p, imp, -, -, h⟩⟩
  · trivial
  · exact own_readModule h
  · exact own_checkImport h

/-- Modules that have been read from their paths. -/
def Genuine (l : ModuleLoader) (programs : Programs) : Prop :=
  ∀ entry ∈ programs, within l.host l.root entry.1 = true ∧
    l.readModule entry.1 = .ok entry.2

/-- What the loader comes to, and what the walk does. -/
def Simulates (l : ModuleLoader) : Except LoadError (Programs × SourceModule) →
    Except (Halt Path LoadError) (List Path) → Path → Prop
  | .ok loaded, .ok done, path => loaded.1.map Prod.fst = done ∧ l.Genuine loaded.1 ∧
    loaded.1.lookup path = some loaded.2
  | .error e, .error stop, _ => e = stopError stop
  | _, _, _ => False

theorem Genuine.cons {programs : Programs} {p : SourceModule} (h : l.Genuine programs)
    (hwithin : within l.host l.root path = true) (hread : l.readModule path = .ok p) :
    l.Genuine ((path, p) :: programs) := by
  intro entry hentry
  rcases mem_cons.mp hentry with rfl | hentry
  · exact ⟨hwithin, hread⟩
  · exact h entry hentry

theorem mem_keys {α : Type} {table : List (Path × α)} :
    path ∈ table.map Prod.fst ↔ ∃ a, table.lookup path = some a := by
  constructor
  · intro h
    obtain ⟨entry, hentry, rfl⟩ := mem_map.mp h
    apply Option.ne_none_iff_exists'.mp
    intro hnone
    have hne := lookup_eq_none_iff.mp hnone entry hentry
    simp at hne
  · rintro ⟨a, ha⟩
    exact mem_map.mpr ⟨(path, a), Assoc.mem_of_lookup ha, rfl⟩

/-- The same about the loop over the imports of a module. -/
def LoopSimulates (l : ModuleLoader) : Except LoadError Programs →
    Except (Halt Path LoadError) (List Path) → Prop
  | .ok programs, .ok done => programs.map Prod.fst = done ∧ l.Genuine programs
  | .error e, .error stop => e = stopError stop
  | _, _ => False

theorem loadImport_eq {load : Programs → Path → Except LoadError (Programs × SourceModule)}
    {programs : Programs} {candidate : Path} (hcheck : l.checkImport path imp = .ok candidate) :
    l.loadImport load path programs imp = (load programs candidate).map Prod.fst := by
  rw [loadImport, hcheck]
  rfl

theorem foldlM_simulates {n : Nat} {stack : List Path}
    (hload : ∀ {programs : Programs} {candidate : Path}, l.Genuine programs →
      l.Simulates (l.load n stack programs candidate)
        (search l.expand n stack (programs.map Prod.fst) candidate) candidate)
    (imports : List ImportDecl) {programs : Programs} (hgenuine : l.Genuine programs) :
    l.LoopSimulates (imports.foldlM (l.loadImport (l.load n stack) path) programs)
      ((imports.map (l.checkImport path)).foldlM (follow (search l.expand n stack))
        (programs.map Prod.fst)) := by
  induction imports generalizing programs with
  | nil => exact ⟨rfl, hgenuine⟩
  | cons imp imports ih =>
    rw [foldlM_cons, map_cons, foldlM_cons]
    cases hcheck : l.checkImport path imp with
    | error e =>
      rw [loadImport, hcheck]
      exact rfl
    | ok candidate =>
      have hfirst := @hload programs candidate hgenuine
      rw [loadImport_eq hcheck, follow]
      cases hresult : l.load n stack programs candidate with
      | error e =>
        rw [hresult] at hfirst
        cases hsearch : search l.expand n stack (programs.map Prod.fst) candidate with
        | error stop =>
          rw [hsearch] at hfirst
          exact hfirst
        | ok done =>
          rw [hsearch] at hfirst
          exact hfirst.elim
      | ok loaded =>
        rw [hresult] at hfirst
        cases hsearch : search l.expand n stack (programs.map Prod.fst) candidate with
        | error stop =>
          rw [hsearch] at hfirst
          exact hfirst.elim
        | ok done =>
          rw [hsearch] at hfirst
          obtain ⟨rfl, hgenuine', -⟩ := hfirst
          exact ih hgenuine'

/-- `load` is a walk through the graph of modules. -/
theorem load_simulates {n : Nat} {stack : List Path}
    (hstack : ∀ a ∈ stack, within l.host l.root a = true) {programs : Programs}
    (hgenuine : l.Genuine programs) (path : Path) :
    l.Simulates (l.load n stack programs path)
      (search l.expand n stack (programs.map Prod.fst) path) path := by
  induction n generalizing stack programs path with
  | zero => exact rfl
  | succ n ih =>
    rw [search, load]
    cases hwithin : within l.host l.root path with
    | false =>
      -- a path that escapes is not on the way, and has not been loaded
      have hway : path ∉ stack := by
        intro h
        rw [hstack path h] at hwithin
        cases hwithin
      have hfresh : path ∉ programs.map Prod.fst := by
        intro h
        obtain ⟨entry, hentry, rfl⟩ := mem_map.mp h
        rw [(hgenuine entry hentry).1] at hwithin
        cases hwithin
      simp only [if_neg hway, if_neg hfresh, expand, hwithin, Bool.not_false, if_true]
      exact rfl
    | true =>
      by_cases hcycle : path ∈ stack
      · simp only [Bool.not_true, Bool.false_eq_true, if_false, if_pos hcycle]
        exact rfl
      simp only [Bool.not_true, Bool.false_eq_true, if_false, if_neg hcycle]
      cases hlookup : programs.lookup path with
      | some p =>
        rw [if_pos (mem_keys.mpr ⟨p, hlookup⟩)]
        exact ⟨rfl, hgenuine, hlookup⟩
      | none =>
        have hfresh : path ∉ programs.map Prod.fst := by
          intro h
          obtain ⟨p, hp⟩ := mem_keys.mp h
          rw [hlookup] at hp
          cases hp
        rw [if_neg hfresh]
        cases hread : l.readModule path with
        | error e =>
          have hexpand : l.expand path = .error e := by
            rw [expand, hwithin, hread]
            rfl
          rw [hexpand]
          exact rfl
        | ok p =>
          rw [expand_eq hwithin hread]
          have hloop := @foldlM_simulates l path n (path :: stack)
            (fun hgenuine => ih (by
              intro a ha
              rcases mem_cons.mp ha with rfl | ha
              · exact hwithin
              · exact hstack a ha) hgenuine _) p.imports programs hgenuine
          show Simulates l (p.imports.foldlM (l.loadImport (l.load n (path :: stack)) path)
            programs >>= fun programs => .ok ((path, p) :: programs, p)) _ path
          simp only
          generalize p.imports.foldlM (l.loadImport (l.load n (path :: stack)) path)
            programs = result at hloop ⊢
          generalize (p.imports.map (l.checkImport path)).foldlM
            (follow (search l.expand n (path :: stack))) (programs.map Prod.fst) =
              searched at hloop ⊢
          cases result with
          | error e =>
            cases searched with
            | error stop => exact hloop
            | ok done => exact hloop.elim
          | ok programs' =>
            cases searched with
            | error stop => exact hloop.elim
            | ok done =>
              obtain ⟨rfl, hgenuine'⟩ := hloop
              exact ⟨rfl, hgenuine'.cons hwithin hread, lookup_cons_self⟩

/-! ## Finitely many modules -/

theorem withExtension_absolute {candidate : Path} (h : candidate.absolute = true) :
    (l.withExtension candidate).absolute = true := by
  have htext := Path.isAbs_text h
  rw [withExtension]
  split
  · split
    · exact join_absolute htext _
    · rw [clean_absolute, isAbs_append htext]
  · exact h

theorem resolveImportPath_absolute {base : Path} (h : base.absolute = true) (imp : Bytes) :
    (l.resolveImportPath base imp).absolute = true := by
  have htext := Path.isAbs_text h
  have hresolve : (l.resolvePath base imp).absolute = true := by
    simp only [resolvePath]
    split
    · split
      · exact join_absolute htext _
      · exact withExtension_absolute (join_absolute htext _)
    · exact withExtension_absolute (join_absolute htext _)
  simp only [resolveImportPath]
  split
  · exact hresolve
  · split
    · exact join_absolute htext _
    · exact hresolve

theorem locateImport_absolute {dir : Path} (h : dir.absolute = true) (imp : Bytes) :
    (l.locateImport dir imp).absolute = true := by
  simp only [locateImport]
  split
  · exact resolveImportPath_absolute h imp
  · exact resolveImportPath_absolute l.rooted imp

theorem checkImport_eq_ok (h : l.checkImport a imp = .ok b) :
    b = l.locateImport a.dir imp.path ∧ within l.host l.root b = true ∧ l.safe b = true ∧
      (l.hasSource b = true ∨ l.fileExists b = true) := by
  simp only [checkImport] at h
  split at h
  · cases h
  · split at h
    · cases h
    next hwithin =>
    split at h
    · cases h
    next hsafe =>
    split at h
    · cases h
    next hexists =>
    cases h
    refine ⟨rfl, by simpa using hwithin, by simpa using hsafe, ?_⟩
    rw [← Bool.or_eq_true, ← Bool.not_eq_false, ← Bool.not_eq_true', Bool.not_or]
    exact fun h => hexists h

theorem mem_of_imports (habs : a.absolute = true) (h : l.Imports a b) :
    b ∈ {path | path ∈ l.overlay.map Prod.fst} ∪
      {path | path.absolute = true ∧ within l.host l.root path = true ∧
        (safeComponents l.host l.root path l.disk).result = .ok true ∧
          ∃ kind, (stat l.host path l.disk).result = .ok kind} := by
  obtain ⟨-, p, imp, -, -, hcheck⟩ := h
  obtain ⟨hb, hwithin, hsafe, hsource⟩ := checkImport_eq_ok hcheck
  have hsafe' : (safeComponents l.host l.root b l.disk).result = .ok true := by
    rw [safe] at hsafe
    split at hsafe
    · next hresult => rw [hresult, hsafe]
    · cases hsafe
  have hfile : l.fileExists b = true → ∃ kind, (stat l.host b l.disk).result = .ok kind := by
    intro hexists
    rw [fileExists] at hexists
    split at hexists
    · next kind hkind => exact ⟨kind, hkind⟩
    · cases hexists
  have habs' : b.absolute = true := by
    rw [hb]
    exact locateImport_absolute (by rw [Path.dir_absolute, habs]) _
  by_cases hoverlay : b ∈ l.overlay.map Prod.fst
  · exact .inl hoverlay
  · right
    refine ⟨habs', hwithin, hsafe', hfile ?_⟩
    refine hsource.elim (fun h => ?_) id
    rw [hasSource, Bool.or_eq_true] at h
    refine h.resolve_left fun hsome => hoverlay (mem_keys.mpr ?_)
    exact Option.isSome_iff_exists.mp hsome

theorem imports_absolute (habs : a.absolute = true) (h : l.Imports a b) : b.absolute = true := by
  obtain ⟨-, p, imp, -, -, hcheck⟩ := h
  rw [(checkImport_eq_ok hcheck).1]
  exact locateImport_absolute (by rw [Path.dir_absolute, habs]) _

theorem finite_reachable (habs : path.absolute = true) : {b | l.Reachable path b}.Finite := by
  have hcover : {b | l.Reachable path b} ⊆ {path} ∪
      ({path | path ∈ l.overlay.map Prod.fst} ∪
        {path | path.absolute = true ∧ within l.host l.root path = true ∧
          (safeComponents l.host l.root path l.disk).result = .ok true ∧
            ∃ kind, (stat l.host path l.disk).result = .ok kind}) := by
    intro b hb
    rcases ReflTransGen.cases_tail hb with rfl | ⟨c, hreach, himports⟩
    · exact .inl rfl
    · have hc : c.absolute = true := by
        clear himports hb
        induction hreach with
        | refl => exact habs
        | tail _ himports ih => exact imports_absolute ih himports
      exact .inr (mem_of_imports hc himports)
  refine Set.Finite.subset ?_ hcover
  exact (Set.finite_singleton _).union ((finite_toSet _).union (finite_safe l.rooted))

end ModuleLoader

end Kryndel
