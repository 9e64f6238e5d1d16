import Kryndel.Checker.ProgramRecords

/-!
# The captures of closures

A closure runs in an environment made of its captures alone. The checker records a
capture when it resolves a read, and passes the captures of a nested closure on to
the closure around it; the target of an assignment is resolved elsewhere and records
nothing. So the captures of an accepted closure are what it reads from outside, and
they cover what it assigns exactly if it reads that as well.
-/

namespace Kryndel

open Lexical

/-- A closure has every variable that it reads or assigns, at any depth, and that is
    declared outside it and not global, among its captures. -/
def CapturesAll (c : Blocks) : Sketch → Prop
  | .closure _ captured params body =>
      ∀ r ∈ outsideReads c params body ++ outsideWrites c params body,
        r.2.2.isGlobal = false → readKey r ∈ captureKeys captured
  | _ => True

/-- A closure reads, at any depth, every variable that it assigns and that is declared
    outside it and not global. -/
def ReadsWritten (c : Blocks) : Outline → Prop
  | .closure _ _ params body =>
      ∀ w ∈ outsideWrites c params body, w.2.2.isGlobal = false →
        ∃ r ∈ outsideReads c params body, readKey r = readKey w
  | _ => True

instance (c : Blocks) (s : Sketch) : Decidable (CapturesAll c s) :=
  match s with
  | .closure _ captured params body => inferInstanceAs (Decidable
      (∀ r ∈ outsideReads c params body ++ outsideWrites c params body,
        r.2.2.isGlobal = false → readKey r ∈ captureKeys captured))
  | .use _ _ | .assign _ _ | .node _ _ | .call _ _ _ _ | .block _ _ =>
      inferInstanceAs (Decidable True)

instance (c : Blocks) (s : Outline) : Decidable (ReadsWritten c s) :=
  match s with
  | .closure _ _ params body => inferInstanceAs (Decidable
      (∀ w ∈ outsideWrites c params body, w.2.2.isGlobal = false →
        ∃ r ∈ outsideReads c params body, readKey r = readKey w))
  | .use _ _ | .assign _ _ | .node _ _ | .call _ _ _ _ | .block _ _ =>
      inferInstanceAs (Decidable True)

theorem mem_captureKeys_iff {hf : Scopes} {c : Blocks} {done : Bool} {captured : List Capture}
    {params : List (String × Decl)} {body : List SketchItem}
    (sound : Sound hf c (.closure done captured params body))
    (visited : Visited c (.closure done captured params body)) {key : String × Nat × String} :
    key ∈ captureKeys captured ↔ ∃ r ∈ outsideReads c params body, readKey r = key := by
  obtain rfl : done = true := visited
  constructor
  · exact sound.2.1 key
  · rintro ⟨r, mem, rfl⟩
    exact captures_complete sound mem

theorem capturesAll_iff {hf : Scopes} {c : Blocks} {s : Sketch} (sound : Sound hf c s)
    (visited : Visited c s) : CapturesAll c s ↔ ReadsWritten c s.erase := by
  cases s with
  | closure done captured params body =>
    have captures := @mem_captureKeys_iff hf c done captured params body sound visited
    simp only [CapturesAll, Skel.erase, ReadsWritten, outsideReads_eraseItems,
      outsideWrites_eraseItems, List.forall_mem_append, captures]
    constructor
    · exact fun all => all.2
    · exact fun written => ⟨fun r mem _ => ⟨r, mem, rfl⟩, written⟩
  | _ => exact Iff.rfl

/-- A token on the first line of a file. -/
def tokenAt (start length : Nat) : Token :=
  { source := "main.kry", start := start, length := length, line := 1, column := start + 1 }

/-- The environment of a program that declares no types and no functions and calls no
    builtin. -/
def plainEnv : CheckEnv := { builtins := fun _ => none }

theorem plainEnv_builtins : BuiltinsCheckArguments plainEnv := nofun

/-- The program `let mut x = 0; let f = fn() -> Nil { <body> };`. -/
def closureProgram (body : List Stmt) : Program where
  statements := [
    .letStmt { tok := tokenAt 0 3, nameToken := tokenAt 8 1, name := "x", mutable := true }
      (.int { tok := tokenAt 12 1 } 0),
    .letStmt { tok := tokenAt 15 3, nameToken := tokenAt 19 1, name := "f" }
      (.lambda { tok := tokenAt 23 2 } { name := "", ret := .named "Nil" [] (tokenAt 31 3) }
        body [])]

/-- `x = 1;` -/
def assignX : Stmt :=
  .assign (tokenAt 37 1) (.var { tok := tokenAt 37 1 } "x" {}) (.int { tok := tokenAt 41 1 } 1)

/-- `let y = x;` -/
def readX : Stmt :=
  .letStmt { tok := tokenAt 44 3, nameToken := tokenAt 48 1, name := "y" }
    (.var { tok := tokenAt 52 1 } "x" {})

end Kryndel
