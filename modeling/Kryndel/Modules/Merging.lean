import Kryndel.Modules.Loading

/-!
# Which programs are loaded

Merging is a walk through the modules that have been loaded. It puts the declarations of a
module behind those of the modules that it imports; only the root comes before all others.
-/

namespace Kryndel

open Relation DepthFirst List

namespace ModuleLoader

variable {l : ModuleLoader} {a b path : Path} {e : LoadError} {programs : Programs}

/-! ## What has been loaded -/

variable {p : SourceModule} {src : ModuleSource}

theorem parseModule_name (h : l.parseModule a src = .ok p) : p.source.name = src.name := by
  rw [parseModule] at h
  split at h <;> cases h
  rfl

theorem readSource_name (h : l.readSource a = .ok src) : src.name = a := by
  rw [readSource] at h
  split at h
  · cases h
  · split at h
    · cases h
    · split at h <;> cases h
      rfl

theorem readModule_name (h : l.readModule a = .ok p) : p.source.name = a := by
  rw [readModule] at h
  split at h
  · exact parseModule_name h
  · cases hsource : l.readSource a with
    | error e' =>
      rw [hsource] at h
      cases h
    | ok src =>
      rw [hsource] at h
      exact (parseModule_name h).trans (readSource_name hsource)

theorem Genuine.unique {programs programs' : Programs} (h : l.Genuine programs)
    (h' : l.Genuine programs') (hkeys : programs.map Prod.fst = programs'.map Prod.fst) :
    programs = programs' := by
  induction programs generalizing programs' with
  | nil => exact (map_eq_nil_iff.mp hkeys.symm).symm
  | cons entry programs ih =>
    cases programs' with
    | nil => cases hkeys
    | cons entry' programs' =>
      obtain ⟨hkey, hkeys⟩ := List.cons.inj hkeys
      have hread := (h entry mem_cons_self).2
      rw [hkey, (h' entry' mem_cons_self).2] at hread
      rw [ih (fun e he => h e (mem_cons_of_mem _ he))
        (fun e he => h' e (mem_cons_of_mem _ he)) hkeys,
        Prod.ext hkey (Except.ok.inj hread).symm]

theorem Simulates.unique {r r' : Except LoadError (Programs × SourceModule)}
    {walk : Except (Halt Path LoadError) (List Path)} (h : l.Simulates r walk path)
    (h' : l.Simulates r' walk path) : r = r' := by
  cases walk with
  | error stop =>
    cases r with
    | ok loaded => exact h.elim
    | error e =>
      cases r' with
      | ok loaded => exact h'.elim
      | error e' => exact congrArg _ (h.trans h'.symm)
  | ok done =>
    cases r with
    | error e => exact h.elim
    | ok loaded =>
      cases r' with
      | error e' => exact h'.elim
      | ok loaded' =>
        obtain ⟨programs, p⟩ := loaded
        obtain ⟨programs', p'⟩ := loaded'
        obtain ⟨hkeys, hgenuine, hlookup⟩ := h
        obtain ⟨hkeys', hgenuine', hlookup'⟩ := h'
        obtain rfl := hgenuine.unique hgenuine' (hkeys.trans hkeys'.symm)
        have hp : p = p' := Option.some.inj (hlookup.symm.trans hlookup')
        rw [hp]

/-! ## Merging as a walk -/

/-- Where the imports of a module lead. -/
def imported (l : ModuleLoader) (a : Path) (p : SourceModule) : List Path :=
  p.imports.map fun imp => l.locateImport a.dir imp.path

/-- Where modules that have been loaded lead. -/
def next (l : ModuleLoader) (programs : Programs) (a : Path) : Option (List Path) :=
  (programs.lookup a).map (l.imported a)

/-- Modules that are listed, the last one first, are appended. -/
def gathered (programs : Programs) (out : Merged) (listed : List Path) : Merged :=
  listed.foldr (fun a out =>
    match programs.lookup a with
    | none => out
    | some q => out.append q) out

theorem gathered_cons {q : SourceModule} {out : Merged} {listed : List Path}
    (h : programs.lookup a = some q) :
    gathered programs out (a :: listed) = (gathered programs out listed).append q := by
  rw [gathered, foldr_cons, h]
  rfl

theorem add_gather (hgenuine : l.Genuine programs) (out : Merged) (n : Nat)
    (st : List Path × List Path) (p : SourceModule) :
    l.add programs n (st.1, gathered programs out st.2) p =
      (gather (l.next programs) n st (l.imported p.source.name p)).map fun st =>
        (st.1, gathered programs out st.2) := by
  induction n generalizing st p with
  | zero => rfl
  | succ n ih =>
    rw [add, gather, imported]
    generalize p.source.name.dir = dir
    have hstep : ∀ (st : List Path × List Path) (imp : ImportDecl),
        l.addImport programs (l.add programs n) dir (st.1, gathered programs out st.2) imp =
          (mark (l.next programs) (gather (l.next programs) n) st
            (l.locateImport dir imp.path)).map fun st => (st.1, gathered programs out st.2) := by
      intro st imp
      simp only [addImport, mark]
      generalize l.locateImport dir imp.path = candidate
      split
      · rfl
      · cases hlookup : programs.lookup candidate with
        | none =>
          rw [next, hlookup]
          rfl
        | some q =>
          have hread := (hgenuine _ (Assoc.mem_of_lookup hlookup)).2
          have hnext : l.next programs candidate = some (l.imported candidate q) := by
            rw [next, hlookup]
            rfl
          have hadd := ih (candidate :: st.1, st.2) q
          rw [readModule_name hread] at hadd
          simp only [hadd, hnext, Option.map_map]
          congr 1
          funext st'
          simp only [Function.comp_apply, gathered_cons hlookup]
    generalize p.imports = imports
    induction imports generalizing st with
    | nil => rfl
    | cons imp imports ihimports =>
      rw [foldlM_cons, map_cons, foldlM_cons, hstep]
      cases mark (l.next programs) (gather (l.next programs) n) st
          (l.locateImport dir imp.path) with
      | none => rfl
      | some st' => exact ihimports st'

/-! ## The merged program -/

/-- The implementations of modules, each behind `n` functions and those of the ones before. -/
def implementationsBehind : Nat → List SourceModule → List TraitImplDecl
  | _, [] => []
  | n, q :: rest =>
    q.program.traitImpls.map (shifted n) ++
      implementationsBehind (n + q.program.functions.length) rest

/-- The declarations of modules behind those of a root. -/
def mergedOf (root : SourceModule) (modules : List SourceModule) : Merged :=
  { source := root.source
    imports := root.imports
    sources := root.source :: modules.map (·.source)
    program := { root.program with
      functions := root.program.functions ++ modules.flatMap (·.program.functions)
      structs := root.program.structs ++ modules.flatMap (·.program.structs)
      enums := root.program.enums ++ modules.flatMap (·.program.enums)
      traits := root.program.traits ++ modules.flatMap (·.program.traits)
      traitImpls := root.program.traitImpls ++
        implementationsBehind root.program.functions.length modules } }

theorem implementationsBehind_append (n : Nat) (modules : List SourceModule) (q : SourceModule) :
    implementationsBehind n (modules ++ [q]) = implementationsBehind n modules ++
      q.program.traitImpls.map
        (shifted (n + (modules.flatMap (·.program.functions)).length)) := by
  induction modules generalizing n with
  | nil => simp [implementationsBehind]
  | cons first modules ih =>
    rw [cons_append, implementationsBehind, ih, implementationsBehind, flatMap_cons,
      length_append, append_assoc, Nat.add_assoc]

theorem mergedOf_append (root : SourceModule) (modules : List SourceModule) (q : SourceModule) :
    (mergedOf root modules).append q = mergedOf root (modules ++ [q]) := by
  simp [mergedOf, Merged.append, implementationsBehind_append, append_assoc,
    length_append]

/-- A program into which the modules that are reachable have been merged. -/
structure MergedFrom (l : ModuleLoader) (path : Path) (merged : Merged) (root : SourceModule)
    (modules : List (Path × SourceModule)) : Prop where
  readRoot : l.readModule path = .ok root
  read : ∀ entry ∈ modules, l.readModule entry.1 = .ok entry.2
  reachable : ∀ b, b ∈ path :: modules.map Prod.fst ↔ l.Reachable path b
  once : (path :: modules.map Prod.fst).Nodup
  /-- What a module imports comes before it. -/
  imports : ∀ front entry back, modules = front ++ entry :: back →
    ∀ c, l.Imports entry.1 c → c ∈ front.map Prod.fst
  merged : merged = mergedOf root (modules.map Prod.snd)

/-- Modules that have been listed, in the order in which they are appended. -/
def listedModules (programs : Programs) (listed : List Path) : List (Path × SourceModule) :=
  listed.reverse.filterMap fun a => (programs.lookup a).map (a, ·)

theorem gathered_eq {root : SourceModule} {listed : List Path}
    (h : ∀ a ∈ listed, a ∈ programs.map Prod.fst) :
    gathered programs (mergedOf root []) listed =
        mergedOf root ((listedModules programs listed).map Prod.snd) ∧
      (listedModules programs listed).map Prod.fst = listed.reverse := by
  induction listed with
  | nil => exact ⟨rfl, rfl⟩
  | cons a listed ih =>
    obtain ⟨q, hq⟩ := mem_keys.mp (h a mem_cons_self)
    obtain ⟨hmerged, hkeys⟩ := ih fun b hb => h b (mem_cons_of_mem _ hb)
    have hlist : listedModules programs (a :: listed) =
        listedModules programs listed ++ [(a, q)] := by
      simp [listedModules, hq]
    constructor
    · rw [gathered_cons hq, hmerged, mergedOf_append, hlist, map_append]
      rfl
    · rw [hlist, map_append, hkeys, reverse_cons]
      rfl

theorem mem_listedModules {listed : List Path} {entry : Path × SourceModule}
    (h : entry ∈ listedModules programs listed) : entry ∈ programs := by
  obtain ⟨a, -, ha⟩ := mem_filterMap.mp h
  obtain ⟨q, hq, rfl⟩ := Option.map_eq_some_iff.mp ha
  exact Assoc.mem_of_lookup hq

theorem next_iff (hgenuine : l.Genuine programs) (ha : a ∈ programs.map Prod.fst)
    (hsound : ∀ e, ¬ l.Faulty a e) : Next (l.next programs) a b ↔ l.Imports a b := by
  obtain ⟨q, hq⟩ := mem_keys.mp ha
  obtain ⟨hwithin, hread⟩ := hgenuine _ (Assoc.mem_of_lookup hq)
  have hnext : l.next programs a = some (l.imported a q) := by
    rw [next, hq]
    rfl
  constructor
  · rintro ⟨after, hafter, hb⟩
    rw [hnext] at hafter
    rw [← Option.some.inj hafter] at hb
    obtain ⟨imp, himp, rfl⟩ := mem_map.mp hb
    cases hcheck : l.checkImport a imp with
    | error e => exact absurd (.inr ⟨hwithin, .inr ⟨q, imp, hread, himp, hcheck⟩⟩) (hsound e)
    | ok c =>
      rw [← (checkImport_eq_ok hcheck).1]
      exact ⟨hwithin, q, imp, hread, himp, hcheck⟩
  · rintro ⟨-, q', imp, hread', himp, hcheck⟩
    rw [hread] at hread'
    obtain rfl := Except.ok.inj hread'
    refine ⟨_, hnext, mem_map.mpr ⟨imp, himp, ?_⟩⟩
    exact (checkImport_eq_ok hcheck).1.symm

/-! ## Loading a program -/

theorem search_settles (habs : path.absolute = true) :
    ∃ n, search l.expand n [] [] path ≠ .error .cutOff := by
  obtain ⟨nodes, hnodes⟩ := Set.Finite.exists_finset_coe (l.finite_reachable habs)
  have hmem : ∀ b, b ∈ nodes.toList ↔ l.Reachable path b := by
    intro b
    rw [Finset.mem_toList, ← Finset.mem_coe, hnodes]
    rfl
  refine ⟨nodes.toList.length + 1, search_enough (fun a b ha hedge => ?_) ((hmem path).mpr .refl)
    (nil_subset _) .nil (by simp)⟩
  exact (hmem b).mpr (((hmem a).mp ha).tail (edge_iff.mp hedge))

theorem load_mono {n m : Nat} (h : search l.expand n [] [] path ≠ .error .cutOff) (hnm : n ≤ m) :
    l.load m [] [] path = l.load n [] [] path := by
  have hgenuine : l.Genuine [] := fun entry hentry => by cases hentry
  have hn := @load_simulates l n [] (fun a ha => by cases ha) [] hgenuine path
  have hm := @load_simulates l m [] (fun a ha => by cases ha) [] hgenuine path
  rw [map_nil, search_mono h hnm] at hm
  exact hm.unique hn

/-- What has been loaded is merged into a program. -/
theorem merge_loaded {n : Nat} {p : SourceModule} {done : List Path}
    (hkeys : programs.map Prod.fst = done) (hgenuine : l.Genuine programs)
    (hlookup : programs.lookup path = some p)
    (hextends : Extends l.expand (ReflTransGen (Edge l.expand) path) [] done)
    (hn : done.length < n + 1) :
    ∃ merged modules, (∀ m ≥ n, l.merge programs m p = some merged) ∧
      l.MergedFrom path merged p modules := by
  subst hkeys
  have hread := (hgenuine _ (Assoc.mem_of_lookup hlookup)).2
  have hpath : path ∈ programs.map Prod.fst := mem_keys.mpr ⟨p, hlookup⟩
  have hnext : ∀ a ∈ programs.map Prod.fst, ∀ b,
      Next (l.next programs) a b ↔ l.Imports a b := fun a ha b =>
    next_iff hgenuine ha fun e h => hextends.sound a ha e (faulty_iff.mpr h)
  have hordered : Ordered (Next (l.next programs)) (programs.map Prod.fst) :=
    hextends.ordered.mono fun a ha b h => edge_iff.mpr ((hnext a ha b).mp h)
  have hroot : l.next programs path = some (l.imported path p) := by
    rw [next, hlookup]
    rfl
  have htargets : ∀ b ∈ l.imported path p, Next (l.next programs) path b :=
    fun b hb => ⟨_, hroot, hb⟩
  obtain ⟨st, hst, hmarked, -, hall, hnew⟩ := @gather_spec _ _ (l.next programs)
    (programs.map Prod.fst) [path] (l.imported path p) hordered
    (by
      intro b hb
      obtain ⟨q, hq⟩ := mem_keys.mp hb
      simp [next, hq]) n hn (by simpa using hpath) (nodup_singleton _)
    (fun b hb => hordered.mem_of_edge hpath (htargets b hb))
    (by
      intro a ha b hb
      obtain rfl := mem_singleton.mp ha
      exact .single (htargets b hb)) ([path], []) ⟨.nil, by simp⟩
  have hbehind : ∀ b ∈ st.2, TransGen (Next (l.next programs)) path b := by
    intro b hb
    rcases hnew b hb with hb | ⟨a, ha, hreach⟩
    · cases hb
    · exact .head' (htargets a ha) hreach
  have hloaded : ∀ b ∈ st.2, b ∈ programs.map Prod.fst := fun b hb =>
    hordered.of_reaches hpath (hbehind b hb).to_reflTransGen
  obtain ⟨hmerged, hmodules⟩ := @gathered_eq programs p st.2 hloaded
  refine ⟨_, listedModules programs st.2, ?_, hread, ?_, ?_, ?_, ?_, rfl⟩
  · intro m hm
    have hadd := add_gather hgenuine (mergedOf p []) m ([path], []) p
    rw [readModule_name hread, gather_mono hst hm] at hadd
    rw [merge, readModule_name hread, ← hmerged]
    have hstart : (⟨p.source, p.imports, [p.source], p.program⟩ : Merged) = mergedOf p [] := by
      simp [mergedOf, implementationsBehind]
    rw [hstart]
    exact congrArg (Option.map Prod.snd) hadd
  · intro entry hentry
    exact (hgenuine entry (mem_listedModules hentry)).2
  · intro b
    rw [hmodules, mem_cons, mem_reverse]
    constructor
    · rintro (rfl | hb)
      · exact .refl
      · have hreach := (hbehind b hb).to_reflTransGen
        clear hb
        induction hreach with
        | refl => exact .refl
        | tail hreach hstep ih =>
          exact ih.tail ((hnext _ (hordered.of_reaches hpath hreach) _).mp hstep)
    · intro hreach
      induction hreach with
      | refl => exact .inl rfl
      | @tail c b hreach hstep ih =>
        right
        rcases ih with rfl | hc
        · obtain ⟨after, hafter, hb⟩ := (hnext _ hpath b).mpr hstep
          rw [hroot] at hafter
          rw [← Option.some.inj hafter] at hb
          exact hall hb
        · exact hmarked.ordered.mem_of_edge hc ((hnext _ (hloaded c hc) b).mpr hstep)
  · rw [hmodules, nodup_cons, mem_reverse, nodup_reverse]
    exact ⟨fun h => hordered.acyclic hpath (hbehind path h), hmarked.ordered.nodup⟩
  · intro front entry back hsplit c himports
    have hlist : st.2 = (back.map Prod.fst).reverse ++ entry.1 :: (front.map Prod.fst).reverse := by
      rw [← reverse_reverse st.2, ← hmodules, hsplit]
      simp
    have hentry : entry.1 ∈ st.2 := by
      rw [hlist]
      simp
    have hstep := (hnext _ (hloaded _ hentry) c).mpr himports
    exact mem_reverse.mp (hmarked.ordered.behind hlist hstep)

/-- A cycle of imports is reachable from a module. -/
def ReachesCycle (l : ModuleLoader) (path : Path) : Prop :=
  ∃ b, l.Reachable path b ∧ TransGen l.Imports b b

/-- What loading the program of a module comes to. -/
structure Loads (l : ModuleLoader) (path : Path) (r : Except LoadError Merged) : Prop where
  ends : r ≠ .error .cutOff
  cycle : ∀ b, r = .error (.cycle b) → l.Reachable path b ∧ TransGen l.Imports b b
  stops : l.ReachesCycle path → ∃ e, r = .error e
  /-- Unless something else is wrong about a module, cycles are what is reported. -/
  reported : (∀ b e, l.Reachable path b → ¬ l.Faulty b e) →
    ((∃ b, r = .error (.cycle b)) ↔ l.ReachesCycle path)
  failed : ∀ e, r = .error e → (∃ b, e = .cycle b) ∨ ∃ b, l.Reachable path b ∧ l.Faulty b e
  merged : ∀ merged, r = .ok merged → ∃ root modules, l.MergedFrom path merged root modules

theorem reachable_iff : ReflTransGen (Edge l.expand) a b ↔ l.Reachable a b := by
  rw [edge_eq]
  rfl

/-- A walk that has been stopped has come upon a cycle or upon something that is wrong. -/
theorem Loads.of_stop {stop : Halt Path LoadError} (hstop : stop ≠ .cutOff)
    (h : Explained l.expand (ReflTransGen (Edge l.expand) path) [] (path ∈ ·) (.error stop)) :
    l.Loads path (.error (stopError stop)) := by
  cases stop with
  | cutOff => exact absurd rfl hstop
  | cycle b =>
    have hcycle : l.Reachable path b ∧ TransGen l.Imports b b := by
      rw [← reachable_iff, ← edge_eq]
      exact h
    refine ⟨by simp [stopError], ?_, fun _ => ⟨_, rfl⟩, fun _ => ?_, fun e he => ?_, ?_⟩
    · intro c hc
      obtain rfl : b = c := by simpa [stopError] using hc
      exact hcycle
    · exact ⟨fun _ => ⟨b, hcycle⟩, fun _ => ⟨b, rfl⟩⟩
    · exact .inl ⟨b, (Except.error.inj he).symm⟩
    · intro merged hmerged
      cases hmerged
  | failed e =>
    obtain ⟨b, hreach, hfaulty⟩ := h
    rw [reachable_iff] at hreach
    rw [faulty_iff] at hfaulty
    have hown := hfaulty.own
    have hne : ∀ c, e ≠ .cycle c := by
      rintro c rfl
      exact hown
    refine ⟨?_, ?_, fun _ => ⟨_, rfl⟩, ?_, ?_, ?_⟩
    · intro he
      rw [show e = .cutOff from Except.error.inj he] at hown
      exact hown
    · intro c hc
      exact absurd (Except.error.inj hc) (hne c)
    · intro hclean
      exact absurd hfaulty (hclean b e hreach)
    · intro e' he'
      obtain rfl : e = e' := Except.error.inj he'
      exact .inr ⟨b, hreach, hfaulty⟩
    · intro merged hmerged
      cases hmerged

theorem Loads.of_merged {done : List Path} {merged : Merged} {root : SourceModule}
    {modules : List (Path × SourceModule)} (hpath : path ∈ done)
    (h : Extends l.expand (ReflTransGen (Edge l.expand) path) [] done)
    (hmerged : l.MergedFrom path merged root modules) : l.Loads path (.ok merged) := by
  have hacyclic : ¬ l.ReachesCycle path := by
    rintro ⟨b, hreach, hcycle⟩
    rw [← edge_eq] at hcycle
    exact h.ordered.acyclic (h.ordered.of_reaches hpath (reachable_iff.mpr hreach)) hcycle
  refine ⟨nofun, nofun, fun hcycle => absurd hcycle hacyclic, fun _ => ⟨?_, ?_⟩, nofun, ?_⟩
  · rintro ⟨b, hb⟩
    cases hb
  · exact fun hcycle => absurd hcycle hacyclic
  · intro merged' hmerged'
    obtain rfl : merged = merged' := Except.ok.inj hmerged'
    exact ⟨root, modules, hmerged⟩

/-- Loading a program ends, whatever its modules import. A cycle that is reported is one, and
    where there is a cycle the program is not loaded; it is the cycle that is reported unless
    something else is wrong about a module that is reachable. In a program that is loaded the
    declarations of the root come first, and then those of every other module that is reachable,
    once and behind those of the modules that it imports. -/
theorem loads_programs (l : ModuleLoader) (path : Path) :
    ∃ n r, (∀ m ≥ n, l.loadProgram m path = r) ∧
      l.Loads (path.abs l.host.workingDirectory) r := by
  have habs : (path.abs l.host.workingDirectory).absolute = true := path.abs_absolute rfl
  have hloadProgram : ∀ m, l.loadProgram m path =
      (l.load m [] [] (path.abs l.host.workingDirectory)).bind (l.mergeLoaded m) :=
    fun m => rfl
  generalize path.abs l.host.workingDirectory = path at habs hloadProgram ⊢
  obtain ⟨n, hn⟩ := l.search_settles habs
  have hgenuine : l.Genuine [] := fun entry hentry => by cases hentry
  have hsimulates := @load_simulates l n [] (fun a ha => by cases ha) [] hgenuine path
  have hspec := @search_spec Path LoadError _ l.expand n [] [] path .nil
    (fun b hb => by cases hb) (fun b hb => by cases hb)
  rw [map_nil] at hsimulates
  have hload : ∀ m ≥ n, l.load m [] [] path = l.load n [] [] path := fun m hm => load_mono hn hm
  cases hsearch : search l.expand n [] [] path with
  | error stop =>
    rw [hsearch] at hsimulates hspec hn
    cases hresult : l.load n [] [] path with
    | ok loaded =>
      rw [hresult] at hsimulates
      exact hsimulates.elim
    | error e =>
      rw [hresult] at hsimulates
      obtain rfl : e = stopError stop := hsimulates
      refine ⟨n, .error (stopError stop), fun m hm => ?_, .of_stop ?_ hspec⟩
      · rw [hloadProgram, hload m hm, hresult]
        rfl
      · rintro rfl
        exact hn rfl
  | ok done =>
    rw [hsearch] at hsimulates hspec
    cases hresult : l.load n [] [] path with
    | error e =>
      rw [hresult] at hsimulates
      exact hsimulates.elim
    | ok loaded =>
      rw [hresult] at hsimulates
      obtain ⟨programs, root⟩ := loaded
      obtain ⟨hkeys, hgenuine', hlookup⟩ := hsimulates
      obtain ⟨hextends, hpath⟩ := hspec
      obtain ⟨merged, modules, hmerge, hmerged⟩ := @merge_loaded l path programs
        (max n done.length) root done hkeys hgenuine' hlookup hextends (by omega)
      refine ⟨max n done.length, .ok merged, fun m hm => ?_, .of_merged hpath hextends hmerged⟩
      rw [hloadProgram, hload m (by omega), hresult]
      show l.mergeLoaded m (programs, root) = _
      rw [mergeLoaded, hmerge m hm]

/-! ## A module that imports itself -/

def programName : FileName where
  text := ascii "program.kry"
  ordinary := by decide

def workName : FileName where
  text := ascii "work"
  ordinary := by decide

/-- The file `/work/program.kry`. -/
def programPath : Path :=
  ((Path.start true).child workName).child programName

/-- The loader of a module that imports one that is missing, and itself. -/
def selfImporting : ModuleLoader where
  host := ⟨[], fun _ => programName, false⟩
  disk := .directory [(workName, .directory [(programName, .file [])])]
  root := (Path.start true).child workName
  rooted := rfl
  validUTF8 _ := true
  parse _ := .ok ([⟨ascii "missing", default⟩, ⟨ascii "program", default⟩], {})
  pathString _ := ""

theorem selfImporting_imports : selfImporting.Imports programPath programPath := by
  have hread : (match selfImporting.readModule programPath with
      | .ok p => decide (p.imports = [⟨ascii "missing", default⟩, ⟨ascii "program", default⟩])
      | .error _ => false) = true := by
    decide +kernel
  have hcheck : (match selfImporting.checkImport programPath ⟨ascii "program", default⟩ with
      | .ok b => decide (b = programPath)
      | .error _ => false) = true := by
    decide +kernel
  refine ⟨by decide, ?_⟩
  split at hread
  · next p hp =>
    split at hcheck
    · next b hb =>
      refine ⟨p, ⟨ascii "program", default⟩, hp, ?_, ?_⟩
      · rw [of_decide_eq_true hread]
        exact mem_cons_of_mem _ mem_cons_self
      · rw [hb, of_decide_eq_true hcheck]
    · cases hcheck
  · cases hread

/-- Why a program has not been loaded. -/
def errorOf : Except LoadError Merged → Option LoadError
  | .error e => some e
  | .ok _ => none

/-- What is reported about it is not the cycle. -/
theorem cycle_not_reported :
    ¬ ∀ (l : ModuleLoader) (path : Path) (n : Nat), l.loadProgram n path ≠ .error .cutOff →
      ((∃ b, l.loadProgram n path = .error (.cycle b)) ↔
        l.ReachesCycle (path.abs l.host.workingDirectory)) := by
  intro hclaim
  have hload : errorOf (selfImporting.loadProgram 2 programPath) =
      some (.unresolved default (ascii "missing")) := by
    decide +kernel
  obtain ⟨b, hb⟩ := (hclaim selfImporting programPath 2 (by
    intro h
    rw [h] at hload
    cases hload)).mpr ⟨programPath, .refl, .single selfImporting_imports⟩
  rw [hb] at hload
  cases hload

end ModuleLoader

end Kryndel
