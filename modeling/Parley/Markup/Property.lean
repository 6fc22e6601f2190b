import Parley.Number.Decimal
import Parley.Table
set_option autoImplicit false

/-!
Properties of markup tags and the values they are written with.
-/

namespace Parley.Markup

inductive PropertyValue where
  | string (t : Text)
  | number (x : Float)
  | bool (b : Bool)
  deriving DecidableEq, Repr

abbrev Properties := Table PropertyValue

namespace PropertyValue

/-- Digits, optionally with a point among them or before them, after an optional minus. Digits have
to follow the point. -/
def isNumeral (t : Text) : Bool :=
  let magnitude := match t with
    | '-' :: r => r
    | r => r
  match magnitude.dropWhile Text.isDigit with
  | [] => !magnitude.isEmpty
  | '.' :: fraction => !fraction.isEmpty && fraction.all Text.isDigit
  | _ => false

def unquote? (t : Text) : Option Text :=
  if 2 ≤ t.length ∧ t.head? = some '"' ∧ t.getLast? = some '"' then some t.tail.dropLast else none

def ofText (t : Text) : PropertyValue :=
  if t = "true".toList then .bool true
  else if t = "false".toList then .bool false
  else if isNumeral t then
    match Number.read? t with
    | some x => .number x
    | none => .string t
  else .string ((unquote? t).getD t)

def text : PropertyValue → Text
  | .string t => t
  | .number x => Number.text x
  | .bool true => "true".toList
  | .bool false => "false".toList

def number? : PropertyValue → Option Float
  | .number x => some x
  | _ => none

end PropertyValue

end Parley.Markup
