import Kryndel.Values.Typing

/-!
# Copyable values

The values that threads and actors may be sent, as the runtime tells them when they are sent
(`copyableValue`).
-/

namespace Kryndel

/-- `copyableValue`, with the number of levels left. -/
def copyableValueAt : Nat → Value → Bool
  | 0, _ => false
  | n + 1, v =>
      match v with
      | .nil | .int _ | .uint _ _ | .float _ | .bool _ | .string _ | .bytes _ | .enum _ _
      | .json _ => true
      | .array items | .set items => items.all (copyableValueAt n)
      | .struct _ _ fields => fields.all (copyableValueAt n)
      | .absent => true
      | .present inner | .result _ inner => copyableValueAt n inner
      | .map keys values => keys.all (copyableValueAt n) && values.all (copyableValueAt n)
      | .handle .shared _ => true
      | .handle _ _ | .function _ => false

/-- `copyableValue` from depth zero. -/
def copyableValue (v : Value) : Bool := copyableValueAt 129 v

/-- `cloneValue`: a value with the same content. -/
def cloneValue (v : Value) : Value := v

end Kryndel
