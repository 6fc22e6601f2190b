import Parley.Number.Decimal
import Parley.Plural.Rules
set_option autoImplicit false

/-!
The plural rules that the program comes with, for the languages of its table.
-/

namespace Parley.Console.PluralTable

open Plural

/-- What a rule may ask of a number: its magnitude `n`, its whole part `i`, the number `v` of digits
after the point and the number `f` that these digits form. -/
structure Operands where
  n : Float
  i : Nat
  v : Nat
  f : Nat

namespace Operands

def limit : Nat := 18446744073709551615

/-- The operands of a number, from its decimal text. A whole number too large for an operand counts
as the largest; a number with a fraction has no operands when one of its parts is too large. -/
def ofFloat? (x : Float) : Option Operands :=
  let digits := Number.magnitudeText x
  match Text.cut '.' digits with
  | none =>
    match Number.Binary.ofFloat x with
    | .nan => some ⟨x.abs, 0, 0, 0⟩
    | .infinite _ => some ⟨x.abs, limit, 0, 0⟩
    | .finite .. => some ⟨x.abs, min limit (Number.digitsValue digits), 0, 0⟩
  | some (whole, fraction) =>
    let i := Number.digitsValue whole
    let f := Number.digitsValue fraction
    if i ≤ limit ∧ f ≤ limit then some ⟨x.abs, i, fraction.length, f⟩ else none

def is (o : Operands) (k : Nat) : Bool :=
  o.n == Float.ofNat k

end Operands

abbrev Rule := Operands → Category

def within (k lo hi : Nat) : Bool :=
  decide (lo ≤ k) && decide (k ≤ hi)

namespace Rule

def always : Rule := fun _ => .other

def wholeOne : Rule := fun o =>
  if o.i == 1 && o.v == 0 then .one else .other

def exactlyOne : Rule := fun o =>
  if o.is 1 then .one else .other

def belowTwo : Rule := fun o =>
  if within o.i 0 1 then .one else .other

def oneTwo : Rule := fun o =>
  if o.is 1 then .one else if o.is 2 then .two else .other

def eastSlavic : Rule := fun o =>
  let a := o.i % 10
  let b := o.i % 100
  if o.v == 0 && within a 2 4 && !within b 12 14 then .few
  else if o.v == 0 && (a == 0 || within a 5 9 || within b 11 14) then .many
  else if o.v == 0 && a == 1 && b != 11 then .one
  else .other

def polish : Rule := fun o =>
  let a := o.i % 10
  let b := o.i % 100
  if o.v == 0 && within a 2 4 && !within b 12 14 then .few
  else if o.v == 0 && ((o.i != 1 && within a 0 1) || within a 5 9 || within b 12 14) then .many
  else if o.i == 1 && o.v == 0 then .one
  else .other

def arabic : Rule := fun o =>
  if within o.i 3 10 then .few
  else if within o.i 11 99 then .many
  else if o.is 1 then .one
  else if o.is 2 then .two
  else if o.is 0 then .zero
  else .other

def czech : Rule := fun o =>
  if within o.i 2 4 && o.v == 0 then .few
  else if o.v != 0 then .many
  else if o.i == 1 && o.v == 0 then .one
  else .other

def welsh : Rule := fun o =>
  if o.is 3 then .few
  else if o.is 6 then .many
  else if o.is 1 then .one
  else if o.is 2 then .two
  else if o.is 0 then .zero
  else .other

def latvian : Rule := fun o =>
  if (o.i % 10 == 1 && o.i % 100 != 11) || (o.v == 2 && o.f % 10 == 1 && o.f % 100 != 11) ||
      (o.v != 2 && o.f % 10 == 1) then .one
  else if o.i % 10 == 0 || within o.i 11 19 || (o.v == 2 && within (o.f % 100) 11 19) then .zero
  else .other

def englishRank : Rule := fun o =>
  let a := o.i % 10
  let b := o.i % 100
  if a == 3 && b != 13 then .few
  else if a == 1 && b != 11 then .one
  else if a == 2 && b != 12 then .two
  else .other

def ukrainianRank : Rule := fun o =>
  if o.i % 10 == 3 && o.i % 100 != 13 then .few else .other

def italianRank : Rule := fun o =>
  if o.is 11 || o.is 8 || o.is 80 || o.is 800 then .many else .other

def welshRank : Rule := fun o =>
  if o.is 3 || o.is 4 then .few
  else if o.is 5 || o.is 6 then .many
  else if o.is 1 then .one
  else if o.is 2 then .two
  else if o.is 0 || o.is 7 || o.is 8 || o.is 9 then .zero
  else .other

def swedishRank : Rule := fun o =>
  let a := o.i % 10
  let b := o.i % 100
  if (a == 1 || a == 2) && b != 11 && b != 12 then .one else .other

end Rule

/-- The rule of a locale written in lower case with hyphens, if the table has it. -/
def rule? (counting : Counting) (locale : String) : Option Rule :=
  match counting with
  | .cardinal =>
    match locale with
    | "en" | "de" | "it" | "pt-pt" | "sv" => some .wholeOne
    | "es" => some .exactlyOne
    | "fr" | "pt" => some .belowTwo
    | "ru" | "uk" => some .eastSlavic
    | "pl" => some .polish
    | "ar" => some .arabic
    | "cs" => some .czech
    | "ja" => some .always
    | "cy" => some .welsh
    | "lv" => some .latvian
    | "naq" => some .oneTwo
    | _ => none
  | .ordinal =>
    match locale with
    | "en" => some .englishRank
    | "de" | "es" | "ru" | "pl" | "ar" | "cs" | "ja" | "pt" | "lv" => some .always
    | "fr" => some .exactlyOne
    | "uk" => some .ukrainianRank
    | "it" => some .italianRank
    | "cy" => some .welshRank
    | "sv" => some .swedishRank
    | _ => none

/-- The rules of a locale by its name, in any case and with hyphens or underscores. A number without
operands has no category. -/
def library : Library := fun counting locale =>
  let tag := locale.map fun c => if c = '_' then '-' else c.toLower
  (rule? counting (String.ofList tag)).map fun rule x => (Operands.ofFloat? x).map rule

end Parley.Console.PluralTable
