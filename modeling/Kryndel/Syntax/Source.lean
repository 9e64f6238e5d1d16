import Mathlib.Data.List.Basic

/-!
# Source positions, diagnostics and limits

The front end passes three kinds of bookkeeping data around: tokens, which name
the place a declaration or an expression was read from, diagnostics, and the
resource limits of one invocation. They are kept as the program has them, less
the fields that only the command line prints.
-/

namespace Kryndel

/-! ## Tokens -/

/-- A token's place in its source file (`Token`). `length` counts bytes. The
    token's kind matters to the parser only, and the checked tree keeps names as
    text. -/
structure Token where
  source : String
  start : Nat
  length : Nat
  line : Nat
  column : Nat
deriving DecidableEq, Repr, Inhabited

/-! ## Diagnostics -/

/-- Diagnostic categories (`Category`). -/
inductive Category where
  | lex | parse | type | runtime | artifact | cli | io | resource
deriving DecidableEq, Repr, Inhabited

/-- A reported error (`Diagnostic`): its category, position and message. -/
structure Diagnostic where
  category : Category
  source : String
  line : Nat
  column : Nat
  message : String
deriving DecidableEq, Repr, Inhabited

/-- `Diag`: positions are clamped to line and column one. -/
def diag (category : Category) (source : String) (line column : Nat) (message : String) :
    Diagnostic where
  category := category
  source := source
  line := max line 1
  column := max column 1
  message := message

/-- The checker's own diagnostics are reported at a token. -/
def Token.typeError (tok : Token) (message : String) : Diagnostic :=
  diag .type tok.source tok.line tok.column message

/-! ## Results that can fail -/

theorem bind_eq_ok_iff {ε α β : Type} {x : Except ε α} {f : α → Except ε β} {b : β} :
    (x >>= f) = .ok b ↔ ∃ a, x = .ok a ∧ f a = .ok b := by
  cases x <;> simp [bind, Except.bind]

theorem bind_eq_ok {ε α β : Type} {x : Except ε α} {f : α → Except ε β} {b : β}
    (h : (x >>= f) = .ok b) : ∃ a, x = .ok a ∧ f a = .ok b :=
  bind_eq_ok_iff.mp h

theorem ite_throw_eq_ok {ε α : Type} {condition : Prop} [Decidable condition] {error : ε}
    {next : PUnit → Except ε α} {rest : Except ε α} {a : α} :
    (if condition then (throw error : Except ε PUnit) >>= next else rest) = .ok a ↔
      ¬ condition ∧ rest = .ok a := by
  by_cases h : condition
  · rw [if_pos h]
    simp [h, throw, throwThe, MonadExceptOf.throw, bind, Except.bind]
  · rw [if_neg h]
    simp [h]

theorem mapError_eq_ok {ε ε' α : Type} {f : ε → ε'} {x : Except ε α} {a : α} :
    x.mapError f = .ok a ↔ x = .ok a := by
  cases x <;> simp [Except.mapError]

/-! ## Limits -/

/-- The resource limits that the modelled functions read (`Limits`). -/
structure Limits where
  maxSourceBytes : Nat := 16777216
  maxTokens : Nat := 1000000
  maxNesting : Nat := 512
  maxTypeDepth : Nat := 128
  maxOverloadsPerName : Nat := 256
  maxCallDepth : Nat := 1024
  maxInstructions : Nat := 5000000
  maxMemoryBytes : Int := 268435456
  maxArrayElements : Nat := 1000000
  maxOutputBytes : Nat := 16777216
deriving DecidableEq, Repr, Inhabited

end Kryndel
