set_option autoImplicit false

/-!
Plural categories of numbers.
-/

namespace Parley.Plural

inductive Category where
  | zero
  | one
  | two
  | few
  | many
  | other
  deriving DecidableEq, Repr

def Category.label : Category → String
  | .zero => "zero"
  | .one => "one"
  | .two => "two"
  | .few => "few"
  | .many => "many"
  | .other => "other"

/-- Whether amounts ("2 items") or ranks ("2nd") are counted. -/
inductive Counting where
  | cardinal
  | ordinal
  deriving DecidableEq, Repr

end Parley.Plural
