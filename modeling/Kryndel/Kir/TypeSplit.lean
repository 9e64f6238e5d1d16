import Kryndel.Kir.TypeText
import Kryndel.Package.Version
import Mathlib.Data.List.DropRight

/-!
# Splitting types that are written as text

KIR takes an encoded type apart again with two scanners. The one for function types counts
parentheses and brackets; the one for containers counts brackets only, so that it also splits at
the commas between the parameters of a function type that is an argument.
-/

namespace Kryndel

open List

/-! ## The scanners -/

/-- The loop of `parseKIRContainerType`, inside a number of brackets and after the characters of
    a piece. -/
def containerArguments : Nat → List Char → List Char → Option (List (List Char))
  | depth, piece, [] => if depth = 0 then some [trimSpace piece] else none
  | depth, piece, c :: rest =>
      if c = '[' then containerArguments (depth + 1) (piece ++ [c]) rest
      else if c = ']' then
        if depth = 0 then none else containerArguments (depth - 1) (piece ++ [c]) rest
      else if c = ',' ∧ depth = 0 then
        (containerArguments 0 [] rest).map (trimSpace piece :: ·)
      else containerArguments depth (piece ++ [c]) rest

/-- `parseKIRContainerType`: the name before the first bracket, and the arguments up to the
    last one. -/
def parseKIRContainerType (encoded : String) : Option (String × List String) :=
  let name := encoded.toList.takeWhile (· != '[')
  match encoded.toList.dropWhile (· != '[') with
  | [] => none
  | _ :: rest =>
      if name = [] ∨ rest.getLast? ≠ some ']' ∨ rest.dropLast = [] then none
      else (containerArguments 0 [] rest.dropLast).map fun arguments =>
        (String.ofList name, arguments.map String.ofList)

/-- The loop of `parseKIRFunctionType`, inside numbers of parentheses and of brackets and after
    the characters of a parameter: the parameters, and what is after the last parenthesis. -/
def functionParameters : Nat → Nat → List Char → List Char → Option (List (List Char) × List Char)
  | _, _, _, [] => none
  | parentheses, brackets, piece, c :: rest =>
      if c = '[' then functionParameters parentheses (brackets + 1) (piece ++ [c]) rest
      else if c = ']' then
        if brackets = 0 then none
        else functionParameters parentheses (brackets - 1) (piece ++ [c]) rest
      else if c = '(' then functionParameters (parentheses + 1) brackets (piece ++ [c]) rest
      else if c = ')' then
        if parentheses = 1 then
          if brackets = 0 then
            some (if trimSpace piece = [] then [] else [trimSpace piece], rest)
          else none
        else functionParameters (parentheses - 1) brackets (piece ++ [c]) rest
      else if c = ',' ∧ parentheses = 1 ∧ brackets = 0 then
        if trimSpace piece = [] then none
        else (functionParameters 1 0 [] rest).map fun (found, after) =>
          (trimSpace piece :: found, after)
      else functionParameters parentheses brackets (piece ++ [c]) rest

/-- The result of a function type, after the parameters. -/
def functionResult (after : List Char) : Option (List Char) :=
  match trimSpace after with
  | '-' :: '>' :: result => if trimSpace result = [] then none else some (trimSpace result)
  | _ => none

/-- `parseKIRFunctionType` -/
def parseKIRFunctionType (raw : String) : Option (List String × String) :=
  match raw.toList with
  | 'f' :: 'n' :: '(' :: rest =>
      (functionParameters 1 0 [] rest).bind fun (params, after) =>
        (functionResult after).map fun result =>
          (params.map String.ofList, String.ofList result)
  | _ => none

/-- The head of an encoded type and its arguments, in the order in which `resolveKIRType` looks
    for them: a function type, a container, a name. -/
def splitKIRType (encoded : String) : KIRTypeLabel × List String :=
  match parseKIRFunctionType encoded with
  | some (params, result) => ({ function := true, name := "" }, params ++ [result])
  | none =>
    match parseKIRContainerType encoded with
    | some (name, arguments) => ({ function := false, name := name }, arguments)
    | none => ({ function := false, name := encoded }, [])

example : splitKIRType "Map[String, Array[Int]]" =
    ({ function := false, name := "Map" }, ["String", "Array[Int]"]) := by decide

/-! ## White space -/

attribute [local simp] containerArguments functionParameters in
theorem trimSpace_cons {c : Char} (h : isSpaceRune c = true) (x : List Char) :
    trimSpace (c :: x) = trimSpace x := by
  rw [trimSpace, trimSpace, dropWhile_cons_of_pos h]

theorem rdropWhile_cons {p : Char → Bool} {c : Char} (h : p c = false) (x : List Char) :
    ((c :: x).reverse.dropWhile p).reverse = c :: (x.reverse.dropWhile p).reverse := by
  rw [reverse_cons, dropWhile_append]
  split
  · rename_i hempty
    rw [List.isEmpty_iff.mp hempty]
    simp [h]
  · simp

theorem trimSpace_trimEnd (x : List Char) :
    trimSpace ((x.reverse.dropWhile isSpaceRune).reverse) = trimSpace x := by
  induction x with
  | nil => rfl
  | cons c x ih =>
    cases h : isSpaceRune c with
    | true =>
      rw [trimSpace_cons h, ← ih, reverse_cons, dropWhile_append]
      split
      · rename_i hempty
        rw [List.isEmpty_iff.mp hempty]
        simp [h]
      · rw [reverse_append, reverse_singleton, singleton_append, trimSpace_cons h]
    | false =>
      rw [rdropWhile_cons h]
      simp only [trimSpace, dropWhile_cons, h, Bool.false_eq_true, if_false]
      rw [rdropWhile_cons h, rdropWhile_cons h]
      simp [dropWhile_idempotent]

/-! ## What the scanner of containers goes over -/

/-- The scanner of containers goes over a text, and outside of brackets splits it at so many
    commas. -/
structure Scans (x : List Char) (n : Nat) : Prop where
  inside : ∀ depth piece rest, containerArguments (depth + 1) piece (x ++ rest) =
    containerArguments (depth + 1) (piece ++ x) rest
  outside : ∀ piece rest, ∃ piece', (containerArguments 0 piece (x ++ rest)).map List.length =
    (containerArguments 0 piece' rest).map fun pieces => pieces.length + n
  whole : n = 0 → ∀ piece rest, containerArguments 0 piece (x ++ rest) =
    containerArguments 0 (piece ++ x) rest

section Scanning

variable {x y : List Char} {n m : Nat}

theorem Scans.nil : Scans [] 0 where
  inside depth piece rest := by simp
  outside piece rest := ⟨piece, by simp⟩
  whole _ piece rest := by simp

theorem Scans.append (hx : Scans x n) (hy : Scans y m) : Scans (x ++ y) (n + m) where
  inside depth piece rest := by
    rw [append_assoc, hx.inside, hy.inside, append_assoc]
  outside piece rest := by
    obtain ⟨piece', hfirst⟩ := hx.outside piece (y ++ rest)
    obtain ⟨piece'', hsecond⟩ := hy.outside piece' rest
    refine ⟨piece'', ?_⟩
    have hlengths :
        (containerArguments 0 piece' (y ++ rest)).map (fun pieces => pieces.length + n) =
          ((containerArguments 0 piece' (y ++ rest)).map List.length).map (· + n) := by
      rw [Option.map_map]
      rfl
    rw [append_assoc, hfirst, hlengths, hsecond, Option.map_map]
    congr 1
    funext pieces
    show pieces.length + m + n = pieces.length + (n + m)
    omega
  whole hzero piece rest := by
    rw [append_assoc, hx.whole (by omega), hy.whole (by omega), append_assoc]

theorem Scans.char {c : Char} (hopen : c ≠ '[') (hclose : c ≠ ']') (hcomma : c ≠ ',') :
    Scans [c] 0 := by
  have hstep : ∀ depth piece rest, containerArguments depth piece (c :: rest) =
      containerArguments depth (piece ++ [c]) rest := by
    intro depth piece rest
    rw [containerArguments, if_neg hopen, if_neg hclose, if_neg fun h => hcomma h.1]
  exact {
    inside := fun depth piece rest => hstep (depth + 1) piece rest
    outside := fun piece rest =>
      ⟨piece ++ [c], congrArg (Option.map List.length) (hstep 0 piece rest)⟩
    whole := fun _ piece rest => hstep 0 piece rest }

theorem Scans.chars (h : ∀ c ∈ x, c ≠ '[' ∧ c ≠ ']' ∧ c ≠ ',') : Scans x 0 := by
  induction x with
  | nil => exact .nil
  | cons c x ih =>
    obtain ⟨hopen, hclose, hcomma⟩ := h c mem_cons_self
    exact (Scans.char hopen hclose hcomma).append (ih fun d hd => h d (mem_cons_of_mem c hd))

theorem containerArguments_comma (piece rest : List Char) :
    containerArguments 0 piece (',' :: rest) =
      (containerArguments 0 [] rest).map (trimSpace piece :: ·) := by
  rw [containerArguments, if_neg (by decide), if_neg (by decide), if_pos (by decide)]

theorem Scans.comma : Scans [','] 1 where
  inside depth piece rest := by
    rw [singleton_append, containerArguments, if_neg (by decide), if_neg (by decide),
      if_neg fun h => absurd h.2 (Nat.succ_ne_zero depth)]
  outside piece rest := by
    refine ⟨[], ?_⟩
    rw [singleton_append, containerArguments_comma, Option.map_map]
    rfl
  whole h := absurd h (by decide)

theorem Scans.brackets (hx : Scans x n) : Scans ('[' :: (x ++ [']'])) 0 := by
  have hstep : ∀ depth piece rest, containerArguments depth piece ('[' :: (x ++ [']']) ++ rest) =
      containerArguments depth (piece ++ '[' :: (x ++ [']'])) rest := by
    intro depth piece rest
    rw [cons_append, containerArguments, if_pos rfl, append_assoc, hx.inside,
      singleton_append, containerArguments, if_neg (by decide), if_pos rfl,
      if_neg (Nat.succ_ne_zero depth)]
    simp
  exact {
    inside := fun depth piece rest => hstep (depth + 1) piece rest
    outside := fun piece rest =>
      ⟨piece ++ '[' :: (x ++ [']']), congrArg (Option.map List.length) (hstep 0 piece rest)⟩
    whole := fun _ piece rest => hstep 0 piece rest }

variable {α : Type}

variable {ts : List α} {text : α → List Char} {commas : α → Nat}

theorem Scans.joined_tail (h : ∀ t ∈ ts, Scans (text t) (commas t)) :
    Scans ((ts.map text).flatMap fun y => ',' :: ' ' :: y) ((ts.map commas).sum + ts.length) := by
  induction ts with
  | nil => exact .nil
  | cons t ts ih =>
    have hspace : Scans [' '] 0 := .char (by decide) (by decide) (by decide)
    have hrest := ih fun u hu => h u (mem_cons_of_mem t hu)
    have hall := ((Scans.comma.append hspace).append (h t mem_cons_self)).append hrest
    have hcount : ((t :: ts).map commas).sum + (t :: ts).length =
        1 + 0 + commas t + ((ts.map commas).sum + ts.length) := by
      simp only [map_cons, sum_cons, length_cons]
      omega
    rw [map_cons, flatMap_cons, hcount]
    exact hall

theorem Scans.joined (h : ∀ t ∈ ts, Scans (text t) (commas t)) :
    Scans (Kryndel.joined (ts.map text)) ((ts.map commas).sum + (ts.length - 1)) := by
  cases ts with
  | nil => exact .nil
  | cons t ts =>
    have hall := (h t mem_cons_self).append
      (Scans.joined_tail fun u hu => h u (mem_cons_of_mem t hu))
    have hcount : ((t :: ts).map commas).sum + ((t :: ts).length - 1) =
        commas t + ((ts.map commas).sum + ts.length) := by
      simp only [map_cons, sum_cons, length_cons]
      omega
    rw [hcount]
    exact hall

theorem containerArguments_joined {ys : List (List Char)} (hx : Scans x 0)
    (hys : ∀ y ∈ ys, Scans y 0) (piece : List Char) :
    containerArguments 0 piece (x ++ ys.flatMap fun y => ',' :: ' ' :: y) =
      some (trimSpace (piece ++ x) :: ys.map trimSpace) := by
  induction ys generalizing x piece with
  | nil => rw [flatMap_nil, hx.whole rfl, containerArguments, if_pos rfl, map_nil]
  | cons y ys ih =>
    have hspace : Scans [' '] 0 := .char (by decide) (by decide) (by decide)
    have hy := hspace.append (hys y mem_cons_self)
    have hrest := ih hy (fun z hz => hys z (mem_cons_of_mem y hz)) []
    have htrim : trimSpace ([] ++ ([' '] ++ y)) = trimSpace y := trimSpace_cons (by decide) y
    rw [flatMap_cons, hx.whole rfl, cons_append, containerArguments_comma]
    rw [htrim] at hrest
    rw [show ' ' :: y ++ _ = [' '] ++ y ++ _ from rfl, hrest, Option.map_some, map_cons]

theorem containerArguments_length (hne : ts ≠ []) (h : ∀ t ∈ ts, Scans (text t) (commas t))
    {pieces : List (List Char)}
    (hpieces : containerArguments 0 [] (joined (ts.map text)) = some pieces) :
    pieces.length = ts.length + (ts.map commas).sum := by
  obtain ⟨piece', hlength⟩ := (Scans.joined h).outside [] []
  have hpos := length_pos_iff.mpr hne
  rw [append_nil, hpieces, containerArguments, if_pos rfl] at hlength
  simp only [Option.map_some, Option.some.injEq, length_singleton] at hlength
  omega

theorem map_eq_self_iff {f : List Char → List Char} {xs : List (List Char)} :
    xs.map f = xs ↔ ∀ y ∈ xs, f y = y := by
  conv_lhs => rhs; rw [← map_id xs]
  exact map_inj_left

/-- The scanner finds the texts just when none of them has an open comma, or white space at its
    ends. -/
theorem containerArguments_iff (hne : ts ≠ []) (h : ∀ t ∈ ts, Scans (text t) (commas t)) :
    containerArguments 0 [] (joined (ts.map text)) = some (ts.map text) ↔
      ∀ t ∈ ts, commas t = 0 ∧ trimSpace (text t) = text t := by
  have hfound : (∀ t ∈ ts, commas t = 0) →
      containerArguments 0 [] (joined (ts.map text)) = some ((ts.map text).map trimSpace) := by
    intro hzero
    have hscans : ∀ y ∈ ts.map text, Scans y 0 := by
      intro y hy
      obtain ⟨t, ht, rfl⟩ := mem_map.mp hy
      exact hzero t ht ▸ h t ht
    obtain ⟨x, ys, hxs⟩ := exists_cons_of_ne_nil (map_eq_nil_iff.not.mpr hne)
    rw [hxs] at hscans ⊢
    exact containerArguments_joined (hscans x mem_cons_self)
      (fun y hy => hscans y (mem_cons_of_mem x hy)) []
  constructor
  · intro hsome
    have hsum : (ts.map commas).sum = 0 := by
      have hlength := containerArguments_length hne h hsome
      rw [length_map] at hlength
      omega
    have hzero : ∀ t ∈ ts, commas t = 0 := fun t ht =>
      List.sum_eq_zero_iff_forall_eq_nat.mp hsum _ (mem_map_of_mem ht)
    have htrimmed := map_eq_self_iff.mp (Option.some.inj ((hfound hzero).symm.trans hsome))
    exact fun t ht => ⟨hzero t ht, htrimmed _ (mem_map_of_mem ht)⟩
  · intro hall
    rw [hfound fun t ht => (hall t ht).1]
    congr 1
    refine map_eq_self_iff.mpr fun y hy => ?_
    obtain ⟨t, ht, rfl⟩ := mem_map.mp hy
    exact (hall t ht).2

end Scanning

/-! ## What the scanner of function types goes over -/

/-- The scanner of function types goes over a text where a condition on the numbers of
    parentheses and of brackets holds. -/
def PassesWhere (condition : Nat → Nat → Prop) (x : List Char) : Prop :=
  ∀ parentheses brackets piece rest, 1 ≤ parentheses → condition parentheses brackets →
    functionParameters parentheses brackets piece (x ++ rest) =
      functionParameters parentheses brackets (piece ++ x) rest

/-- It goes over a text wherever it stands. -/
abbrev Passes (x : List Char) : Prop := PassesWhere (fun _ _ => True) x

/-- It goes over a text inside of a further parenthesis or bracket. -/
abbrev PassesInside (x : List Char) : Prop :=
  PassesWhere (fun parentheses brackets => 2 ≤ parentheses ∨ 1 ≤ brackets) x

section Passing

variable {condition : Nat → Nat → Prop} {x y : List Char}

theorem PassesWhere.nil : PassesWhere condition [] := by
  intro parentheses brackets piece rest _ _
  simp

theorem PassesWhere.append (hx : PassesWhere condition x) (hy : PassesWhere condition y) :
    PassesWhere condition (x ++ y) := by
  intro parentheses brackets piece rest hpos hcondition
  rw [append_assoc, hx _ _ _ _ hpos hcondition, hy _ _ _ _ hpos hcondition,
    append_assoc]

theorem Passes.inside (hx : Passes x) : PassesInside x :=
  fun parentheses brackets piece rest hpos _ => hx parentheses brackets piece rest hpos trivial

theorem Passes.char {c : Char} (h : c ≠ '[' ∧ c ≠ ']' ∧ c ≠ '(' ∧ c ≠ ')' ∧ c ≠ ',') :
    Passes [c] := by
  intro parentheses brackets piece rest _ _
  obtain ⟨hopen, hclose, hopen', hclose', hcomma⟩ := h
  rw [singleton_append, functionParameters, if_neg hopen, if_neg hclose, if_neg hopen',
    if_neg hclose', if_neg fun h => hcomma h.1]

theorem Passes.chars (h : ∀ c ∈ x, c ≠ '[' ∧ c ≠ ']' ∧ c ≠ '(' ∧ c ≠ ')' ∧ c ≠ ',') :
    Passes x := by
  induction x with
  | nil => exact .nil
  | cons c x ih =>
    exact PassesWhere.append (Passes.char (h c mem_cons_self))
      (ih fun d hd => h d (mem_cons_of_mem c hd))

theorem PassesInside.comma : PassesInside [','] := by
  intro parentheses brackets piece rest hpos hinside
  rw [singleton_append, functionParameters, if_neg (by decide), if_neg (by decide),
    if_neg (by decide), if_neg (by decide), if_neg (by omega)]

theorem Passes.brackets (hx : PassesInside x) : Passes ('[' :: (x ++ [']'])) := by
  intro parentheses brackets piece rest hpos _
  rw [cons_append, functionParameters, if_pos rfl, append_assoc,
    hx _ _ _ _ hpos (Or.inr (Nat.succ_pos brackets)), singleton_append, functionParameters,
    if_neg (by decide), if_pos rfl, if_neg (Nat.succ_ne_zero brackets)]
  simp

theorem Passes.parentheses (hx : PassesInside x) : Passes ('(' :: (x ++ [')'])) := by
  intro parentheses brackets piece rest hpos _
  rw [cons_append, functionParameters, if_neg (by decide), if_neg (by decide), if_pos rfl,
    append_assoc, hx _ _ _ _ (Nat.succ_pos parentheses) (Or.inl (Nat.succ_le_succ hpos)),
    singleton_append, functionParameters, if_neg (by decide), if_neg (by decide),
    if_neg (by decide), if_pos rfl, if_neg (by omega)]
  simp

variable {xs : List (List Char)}

theorem PassesInside.joined (h : ∀ x ∈ xs, Passes x) :
    PassesInside (Kryndel.joined xs) := by
  have hspace : PassesInside [' '] := Passes.inside (Passes.char (by decide))
  have htail : ∀ ys : List (List Char), (∀ y ∈ ys, Passes y) →
      PassesInside (ys.flatMap fun y => ',' :: ' ' :: y) := by
    intro ys hys
    induction ys with
    | nil => exact .nil
    | cons y ys ih =>
      have hfirst : PassesInside ([','] ++ [' '] ++ y) :=
        (PassesInside.comma.append hspace).append (Passes.inside (hys y mem_cons_self))
      exact hfirst.append (ih fun z hz => hys z (mem_cons_of_mem y hz))
  cases xs with
  | nil => exact .nil
  | cons x xs =>
    exact (Passes.inside (h x mem_cons_self)).append
      (htail xs fun y hy => h y (mem_cons_of_mem x hy))

theorem functionParameters_close (piece after : List Char) :
    functionParameters 1 0 piece (')' :: after) =
      some (if trimSpace piece = [] then [] else [trimSpace piece], after) := by
  rw [functionParameters, if_neg (by decide), if_neg (by decide), if_neg (by decide), if_pos rfl,
    if_pos rfl, if_pos rfl]

theorem functionParameters_comma (piece rest : List Char) :
    functionParameters 1 0 piece (',' :: rest) =
      if trimSpace piece = [] then none
      else (functionParameters 1 0 [] rest).map fun (found, after) =>
        (trimSpace piece :: found, after) := by
  rw [functionParameters, if_neg (by decide), if_neg (by decide), if_neg (by decide),
    if_neg (by decide), if_pos (by decide)]

theorem functionParameters_iff {ys : List (List Char)} (hx : Passes x)
    (hys : ∀ y ∈ ys, Passes y ∧ y ≠ []) (piece after z : List Char) (hz : z ≠ []) :
    functionParameters 1 0 piece
        (x ++ ((ys.flatMap fun y => ',' :: ' ' :: y) ++ ')' :: after)) = some (z :: ys, after) ↔
      trimSpace (piece ++ x) = z ∧ ∀ y ∈ ys, trimSpace y = y := by
  induction ys generalizing x piece z with
  | nil =>
    rw [flatMap_nil, nil_append, hx _ _ _ _ (Nat.le_refl 1) trivial,
      functionParameters_close]
    by_cases hempty : trimSpace (piece ++ x) = []
    · simp [hempty, hz.symm]
    · simp [hempty]
  | cons y ys ih =>
    obtain ⟨hy, hne⟩ := hys y mem_cons_self
    have hspace : Passes [' '] := Passes.char (by decide)
    have htrim : trimSpace ([] ++ ([' '] ++ y)) = trimSpace y := trimSpace_cons (by decide) y
    have hrest := ih (PassesWhere.append hspace hy)
      (fun w hw => hys w (mem_cons_of_mem y hw)) [] y hne
    rw [flatMap_cons, hx _ _ _ _ (Nat.le_refl 1) trivial, cons_append,
      cons_append, functionParameters_comma]
    by_cases hempty : trimSpace (piece ++ x) = []
    · rw [if_pos hempty, hempty]
      simp [hz.symm]
    · have hshape : (' ' :: y ++ ys.flatMap fun y => ',' :: ' ' :: y) ++ ')' :: after =
          [' '] ++ y ++ ((ys.flatMap fun y => ',' :: ' ' :: y) ++ ')' :: after) := by simp
      rw [if_neg hempty, hshape]
      constructor
      · intro h
        obtain ⟨⟨found, after'⟩, hfound, heq⟩ := Option.map_eq_some_iff.mp h
        cases heq
        exact ⟨rfl, forall_mem_cons.mpr (hrest.mp hfound)⟩
      · rintro ⟨rfl, hall⟩
        rw [hrest.mpr (forall_mem_cons.mp hall), Option.map_some]

theorem functionParameters_joined (hxs : ∀ x ∈ xs, Passes x ∧ x ≠ []) (after : List Char) :
    functionParameters 1 0 [] (joined xs ++ ')' :: after) = some (xs, after) ↔
      ∀ x ∈ xs, trimSpace x = x := by
  cases xs with
  | nil =>
    rw [joined, nil_append, functionParameters_close]
    simp [trimSpace]
  | cons x xs =>
    obtain ⟨hx, hne⟩ := hxs x mem_cons_self
    rw [joined, append_assoc, functionParameters_iff hx
      (fun y hy => hxs y (mem_cons_of_mem x hy)) [] after x hne, forall_mem_cons,
      nil_append]

theorem functionParameters_after (hxs : ∀ x ∈ xs, Passes x) {after rest : List Char}
    {found : List (List Char)} (h : functionParameters 1 0 [] (joined xs ++ ')' :: after)
    = some (found, rest)) :
    rest = after := by
  have htail : ∀ (ys : List (List Char)) (x piece : List Char) (found : List (List Char)),
      Passes x → (∀ y ∈ ys, Passes y) →
      functionParameters 1 0 piece
        (x ++ ((ys.flatMap fun y => ',' :: ' ' :: y) ++ ')' :: after)) = some (found, rest) →
      rest = after := by
    intro ys
    induction ys with
    | nil =>
      intro x piece found hx _ h
      rw [flatMap_nil, nil_append, hx _ _ _ _ (Nat.le_refl 1) trivial,
        functionParameters_close] at h
      cases h
      rfl
    | cons y ys ih =>
      intro x piece found hx hys h
      rw [flatMap_cons, hx _ _ _ _ (Nat.le_refl 1) trivial, cons_append,
        cons_append, functionParameters_comma] at h
      split at h
      · cases h
      · obtain ⟨⟨found', rest'⟩, hfound, heq⟩ := Option.map_eq_some_iff.mp h
        cases heq
        have hspace : Passes [' '] := Passes.char (by decide)
        refine ih ([' '] ++ y) [] found' (PassesWhere.append hspace (hys y mem_cons_self))
          (fun w hw => hys w (mem_cons_of_mem y hw)) ?_
        simpa using hfound
  cases xs with
  | nil =>
    rw [joined, nil_append, functionParameters_close] at h
    cases h
    rfl
  | cons x xs =>
    rw [joined, append_assoc] at h
    exact htail xs x [] found (hxs x mem_cons_self)
      (fun y hy => hxs y (mem_cons_of_mem x hy)) h

theorem functionResult_eq (result : List Char) :
    functionResult (' ' :: '-' :: '>' :: ' ' :: result) =
      if trimSpace result = [] then none else some (trimSpace result) := by
  have htrim : trimSpace (' ' :: '-' :: '>' :: ' ' :: result) =
      '-' :: '>' :: ((' ' :: result).reverse.dropWhile isSpaceRune).reverse := by
    rw [trimSpace_cons (by decide), trimSpace, dropWhile_cons_of_neg (by decide),
      rdropWhile_cons (by decide), rdropWhile_cons (by decide)]
  rw [functionResult, htrim]
  simp only [trimSpace_trimEnd, trimSpace_cons (show isSpaceRune ' ' = true by decide)]

end Passing

/-! ## Splitting types -/

mutual

/-- The commas of a type that no bracket encloses: those between the parameters of the function
    types that are not inside of a container. -/
def Ty.openCommas : Ty → Nat
  | .function params ret => allOpenCommas params + (params.length - 1) + ret.openCommas
  | _ => 0

/-- The open commas of some types. -/
def allOpenCommas : List Ty → Nat
  | [] => 0
  | t :: ts => t.openCommas + allOpenCommas ts

end

/-- The text of a type has no white space at its ends. -/
def Ty.Trimmed (t : Ty) : Prop := trimSpace t.text.toList = t.text.toList

section Splitting

variable {env : TypeEnv} {scope : TypeParams} {t u : Ty}

theorem allOpenCommas_eq_sum (ts : List Ty) : allOpenCommas ts = (ts.map Ty.openCommas).sum := by
  induction ts with
  | nil => rfl
  | cons t ts ih => rw [allOpenCommas, ih, map_cons, sum_cons]

theorem openCommas_of_name (h : t.isFunction = false) : t.openCommas = 0 := by
  cases t with
  | function => cases h
  | _ => rw [Ty.openCommas]; simp

theorem PlainName.not_sign {name : List Char} (h : PlainName name) :
    ∀ c ∈ name, c ≠ '[' ∧ c ≠ ']' ∧ c ≠ '(' ∧ c ≠ ')' ∧ c ≠ ',' := by
  intro c hc
  have hpart := h.2 c hc
  simp only [isNamePart, Bool.not_eq_true', contains_eq_mem, mem_cons,
    not_mem_nil, or_false, decide_eq_false_iff_not, not_or] at hpart
  tauto

theorem WellFormed.scans {t : Ty} (hnames : PlainNames env scope) (h : WellFormed env scope t) :
    Scans t.text.toList t.openCommas := by
  have harguments : ∀ a ∈ t.arguments, Scans a.text.toList a.openCommas := by
    intro a ha
    have hsize := Ty.sizeOf_argument ha
    exact (h.arguments a ha).scans hnames
  cases hfunction : t.isFunction with
  | true =>
    obtain ⟨params, ret, rfl⟩ := arguments_of_function hfunction
    have hparams : ∀ a ∈ params, Scans a.text.toList a.openCommas := fun a ha =>
      harguments a (mem_append_left _ ha)
    have hret := harguments ret (mem_append_right _ mem_cons_self)
    have hfn : Scans ['f', 'n', '('] 0 := .chars (by simp)
    have harrow : Scans [')', ' ', '-', '>', ' '] 0 := .chars (by simp)
    have hall := (hfn.append ((Scans.joined hparams).append harrow)).append hret
    have hcount : (Ty.function params ret).openCommas =
        0 + ((params.map Ty.openCommas).sum + (params.length - 1) + 0) + ret.openCommas := by
      rw [Ty.openCommas, allOpenCommas_eq_sum]
      omega
    rw [text_of_function, hcount]
    simpa using hall
  | false =>
    have hname : Scans t.headName.toList 0 := .chars fun c hc =>
      have hsign := (plainName_denoted hnames (h.denoted hfunction)).not_sign c hc
      ⟨hsign.1, hsign.2.1, hsign.2.2.2.2⟩
    rw [openCommas_of_name hfunction]
    by_cases hnil : t.arguments = []
    · rwa [text_of_no_arguments hfunction hnil]
    · rw [text_of_arguments hfunction hnil]
      exact hname.append (Scans.brackets (Scans.joined harguments))
termination_by sizeOf t

theorem WellFormed.passes {t : Ty} (hnames : PlainNames env scope) (h : WellFormed env scope t) :
    Passes t.text.toList := by
  have harguments : ∀ x ∈ t.arguments.map (fun a => a.text.toList), Passes x := by
    intro x hx
    obtain ⟨a, ha, rfl⟩ := mem_map.mp hx
    have hsize := Ty.sizeOf_argument ha
    exact (h.arguments a ha).passes hnames
  cases hfunction : t.isFunction with
  | true =>
    obtain ⟨params, ret, rfl⟩ := arguments_of_function hfunction
    rw [Ty.arguments, map_append] at harguments
    have hparams : ∀ x ∈ params.map (fun a => a.text.toList), Passes x := fun x hx =>
      harguments x (mem_append_left _ hx)
    have hret := harguments _ (mem_append_right _ mem_cons_self)
    have hfn : Passes ['f', 'n'] := .chars (by simp)
    have harrow : Passes [' ', '-', '>', ' '] := .chars (by simp)
    have hall := (hfn.append (Passes.parentheses (PassesInside.joined hparams))).append
      (harrow.append hret)
    rw [text_of_function]
    simpa using hall
  | false =>
    have hname : Passes t.headName.toList :=
      .chars (plainName_denoted hnames (h.denoted hfunction)).not_sign
    by_cases hnil : t.arguments = []
    · rwa [text_of_no_arguments hfunction hnil]
    · rw [text_of_arguments hfunction hnil]
      exact hname.append (Passes.brackets (PassesInside.joined harguments))
termination_by sizeOf t

theorem text_ne_nil (hnames : PlainNames env scope) (h : WellFormed env scope t) :
    t.text.toList ≠ [] := by
  cases hfunction : t.isFunction with
  | true =>
    obtain ⟨params, ret, rfl⟩ := arguments_of_function hfunction
    rw [text_of_function]
    exact cons_ne_nil _ _
  | false =>
    have hname := (plainName_denoted hnames (h.denoted hfunction)).1
    by_cases hnil : t.arguments = []
    · rwa [text_of_no_arguments hfunction hnil]
    · rw [text_of_arguments hfunction hnil]
      simp

theorem map_text_inj {ts : List Ty} {found : List (List Char)} :
    found.map String.ofList = ts.map Ty.text ↔ found = ts.map fun a => a.text.toList := by
  constructor
  · intro h
    have htoList := congrArg (List.map String.toList) h
    simpa [Function.comp_def] using htoList
  · rintro rfl
    simp [Function.comp_def]

theorem span_name {name : List Char} (h : PlainName name) (rest : List Char) :
    (name ++ '[' :: rest).takeWhile (· != '[') = name ∧
      (name ++ '[' :: rest).dropWhile (· != '[') = '[' :: rest := by
  have hall : ∀ c ∈ name, (c != '[') = true := fun c hc => bne_iff_ne.mpr (h.not_sign c hc).1
  rw [takeWhile_append_of_pos hall, dropWhile_append_of_pos hall]
  simp

theorem parseKIRContainerType_of_arguments (hnames : PlainNames env scope)
    (h : WellFormed env scope t) (hfunction : t.isFunction = false) (hne : t.arguments ≠ []) :
    parseKIRContainerType t.text =
      (containerArguments 0 [] (joined (t.arguments.map fun a => a.text.toList))).map
        fun arguments => (t.headName, arguments.map String.ofList) := by
  have hplain := plainName_denoted hnames (h.denoted hfunction)
  obtain ⟨htake, hdrop⟩ :=
    span_name hplain (joined (t.arguments.map fun a => a.text.toList) ++ [']'])
  have hbody : joined (t.arguments.map fun a => a.text.toList) ≠ [] := by
    obtain ⟨a, as, harguments⟩ := exists_cons_of_ne_nil hne
    have ha := text_ne_nil hnames (h.arguments a (harguments ▸ mem_cons_self))
    rw [harguments, map_cons, joined]
    exact append_ne_nil_of_left_ne_nil ha _
  rw [parseKIRContainerType, text_of_arguments hfunction hne, htake, hdrop]
  simp [hplain.1, hbody, String.ofList_toList]

theorem parseKIRContainerType_of_no_arguments (hnames : PlainNames env scope)
    (h : WellFormed env scope t) (hfunction : t.isFunction = false) (hnil : t.arguments = []) :
    parseKIRContainerType t.text = none := by
  have hplain := plainName_denoted hnames (h.denoted hfunction)
  have hdrop : t.headName.toList.dropWhile (· != '[') = [] :=
    dropWhile_eq_nil_iff.mpr fun c hc => bne_iff_ne.mpr (hplain.not_sign c hc).1
  rw [parseKIRContainerType, text_of_no_arguments hfunction hnil, hdrop]

theorem parseKIRFunctionType_of_name (hnames : PlainNames env scope)
    (h : WellFormed env scope t) (hfunction : t.isFunction = false) :
    parseKIRFunctionType t.text = none := by
  have hplain := plainName_denoted hnames (h.denoted hfunction)
  have hrest : ∃ rest, t.text.toList = t.headName.toList ++ rest ∧
      ∀ c, rest.head? = some c → c = '[' := by
    by_cases hnil : t.arguments = []
    · exact ⟨[], by rw [text_of_no_arguments hfunction hnil, append_nil], by simp⟩
    · exact ⟨_, text_of_arguments hfunction hnil, by simp⟩
  obtain ⟨rest, htext, hhead⟩ := hrest
  rw [parseKIRFunctionType]
  split
  · rename_i after heq
    rw [htext] at heq
    have hsign := hplain.not_sign
    -- The parenthesis would be in the name, or would be the bracket after it.
    rcases hname : t.headName.toList with _ | ⟨c, _ | ⟨d, _ | ⟨e, name⟩⟩⟩ <;> rw [hname] at heq
    · exact absurd hname hplain.1
    · cases heq
      exact absurd (hhead 'n' rfl) (by decide)
    · cases heq
      exact absurd (hhead '(' rfl) (by decide)
    · cases heq
      exact absurd rfl (hsign '(' (by simp [hname])).2.2.1
  · rfl

theorem parseKIRContainerType_iff (hnames : PlainNames env scope) (h : WellFormed env scope t)
    (hfunction : t.isFunction = false) (hne : t.arguments ≠ []) :
    parseKIRContainerType t.text = some (t.headName, t.arguments.map Ty.text) ↔
      ∀ a ∈ t.arguments, a.openCommas = 0 ∧ a.Trimmed := by
  have hscans : ∀ a ∈ t.arguments, Scans a.text.toList a.openCommas := fun a ha =>
    (h.arguments a ha).scans hnames
  rw [parseKIRContainerType_of_arguments hnames h hfunction hne, Option.map_eq_some_iff]
  refine Iff.trans ?_ (containerArguments_iff hne hscans)
  constructor
  · rintro ⟨found, hfound, heq⟩
    rw [hfound, map_text_inj.mp (congrArg Prod.snd heq)]
  · intro hfound
    exact ⟨_, hfound, by rw [map_text_inj.mpr rfl]⟩

/-- The scanner of function types finds the parameters and the result just when they have no
    white space at their ends. -/
theorem parseKIRFunctionType_iff (hnames : PlainNames env scope) {params : List Ty} {ret : Ty}
    (h : WellFormed env scope (.function params ret)) :
    parseKIRFunctionType (Ty.function params ret).text = some (params.map Ty.text, ret.text) ↔
      ∀ a ∈ (Ty.function params ret).arguments, a.Trimmed := by
  have hparam : ∀ p ∈ params, WellFormed env scope p := fun p hp =>
    h.arguments p (mem_append_left _ hp)
  have hret : WellFormed env scope ret := h.arguments ret (by simp [Ty.arguments])
  have hpieces : ∀ x ∈ params.map (fun a => a.text.toList), Passes x ∧ x ≠ [] := by
    intro x hx
    obtain ⟨p, hp, rfl⟩ := mem_map.mp hx
    exact ⟨(hparam p hp).passes hnames, text_ne_nil hnames (hparam p hp)⟩
  have hafter := functionResult_eq ret.text.toList
  rw [parseKIRFunctionType, text_of_function]
  simp only [Option.bind_eq_some_iff, Option.map_eq_some_iff, Prod.mk.injEq, Prod.exists]
  constructor
  · rintro ⟨found, rest, hfound, result, hresult, hparams, htext⟩
    have hrest := functionParameters_after (fun x hx => (hpieces x hx).1) hfound
    subst hrest
    rw [map_text_inj.mp hparams] at hfound
    have htrimmed := (functionParameters_joined hpieces _).mp hfound
    intro a ha
    rcases mem_append.mp ha with ha | ha
    · exact htrimmed _ (mem_map_of_mem ha)
    · rw [hafter] at hresult
      split at hresult
      · cases hresult
      · rw [mem_singleton.mp ha, Ty.Trimmed, Option.some.inj hresult, ← htext,
          String.toList_ofList]
  · intro htrimmed
    have hresult : trimSpace ret.text.toList = ret.text.toList :=
      htrimmed ret (by simp [Ty.arguments])
    refine ⟨_, _, (functionParameters_joined hpieces _).mpr ?_, ret.text.toList, ?_,
      map_text_inj.mpr rfl, String.ofList_toList⟩
    · intro x hx
      obtain ⟨p, hp, rfl⟩ := mem_map.mp hx
      exact htrimmed p (mem_append_left _ hp)
    · rw [hafter, hresult, if_neg (text_ne_nil hnames hret)]

end Splitting

theorem plainNames_empty : PlainNames {} [] where
  structs decl h := by cases h
  enums decl h := by cases h
  scope entry h := by cases h

theorem wellFormed_int : WellFormed {} [] .int :=
  .named .int rfl rfl fun a ha => by cases ha

end Kryndel
