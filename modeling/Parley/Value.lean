import Parley.Number.Decimal
set_option autoImplicit false

/-!
The values of script variables and expressions.
-/

namespace Parley

inductive Kind where
  | null
  | bool
  | number
  | string
  deriving DecidableEq, Repr

def Kind.label : Kind → String
  | .null => "null"
  | .bool => "bool"
  | .number => "number"
  | .string => "string"

inductive Value where
  | null
  | bool (b : Bool)
  | number (x : Float)
  | string (t : Text)
  deriving DecidableEq, Repr

namespace Value

def kind : Value → Kind
  | .null => .null
  | .bool _ => .bool
  | .number _ => .number
  | .string _ => .string

/-- Null, false, both zeros, `NaN` and the empty string are the values that count as false. -/
def truthy : Value → Bool
  | .null => false
  | .bool b => b
  | .number x => x != 0.0 && !x.isNaN
  | .string t => !t.isEmpty

/-- The equality of scripts: kinds have to agree, and numbers compare as numbers, so that both
zeros are equal and `NaN` differs from itself. -/
def same : Value → Value → Bool
  | .null, .null => true
  | .bool a, .bool b => a == b
  | .number x, .number y => x == y
  | .string s, .string t => s == t
  | _, _ => false

def number? : Value → Option Float
  | .number x => some x
  | _ => none

def string? : Value → Option Text
  | .string t => some t
  | _ => none

/-- The text of a number in a script: infinities are spelled out and zero has no sign. -/
def numberText (x : Float) : Text :=
  match Number.Binary.ofFloat x with
  | .infinite false => "Infinity".toList
  | .infinite true => "-Infinity".toList
  | .finite _ 0 _ => ['0']
  | _ => Number.text x

def text : Value → Text
  | .null => "null".toList
  | .bool true => "true".toList
  | .bool false => "false".toList
  | .number x => numberText x
  | .string t => t

/-- Values that scripts take for equal have the same kind. -/
theorem kind_eq_of_same {a b : Value} (h : a.same b = true) : a.kind = b.kind := by
  cases a <;> cases b <;> simp_all [same, kind]

end Value

end Parley
