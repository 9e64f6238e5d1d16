import Mathlib.Data.List.Basic

/-!
# Reading element by element

What reads a stream waits for an element, or is done. Such a reader can be held back between any
two elements: what it has read is in what it waits with. A reader takes some elements when it is
done with the last of them.
-/

namespace Reading

variable {B A C : Type}

/-- A reader is done, or it waits for an element. -/
inductive Reader (B A : Type) where
  | done (a : A)
  | need (next : B → Reader B A)

namespace Reader

/-- One reader after the other. -/
def bind : Reader B A → (A → Reader B C) → Reader B C
  | done a, f => f a
  | need next, f => need fun b => (next b).bind f

instance : Monad (Reader B) where
  pure := done
  bind := bind

/-- Reads one element. -/
def read : Reader B B := need done

/-- Reads so many elements. -/
def readN : Nat → Reader B (List B)
  | 0 => done []
  | n + 1 => need fun b => (readN n).bind fun bs => done (b :: bs)

end Reader

open Reader

/-- A reader takes some elements: it is done with the last of them. -/
inductive Takes : Reader B A → List B → A → Prop
  | done (a : A) : Takes (done a) [] a
  | need {next : B → Reader B A} {b : B} {bs : List B} {a : A} (h : Takes (next b) bs a) :
      Takes (need next) (b :: bs) a

namespace Takes

theorem bind {r : Reader B A} {f : A → Reader B C} {bs bs' : List B} {a : A} {c : C}
    (h : Takes r bs a) (h' : Takes (f a) bs' c) : Takes (r >>= f) (bs ++ bs') c := by
  induction h with
  | done a => exact h'
  | need _ ih => exact Takes.need (ih h')

theorem read (b : B) : Takes Reader.read [b] b := Takes.need (Takes.done b)

theorem readN (bs : List B) : Takes (Reader.readN bs.length) bs bs := by
  induction bs with
  | nil => exact Takes.done []
  | cons b bs ih =>
    have htail := bind (f := fun rest => Reader.done (b :: rest)) ih (Takes.done (b :: bs))
    rw [List.append_nil] at htail
    exact Takes.need htail

end Takes

end Reading
