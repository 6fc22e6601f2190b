import Parley.Plural.Category
import Parley.Text
set_option autoImplicit false

/-!
Plural rules by locale.

The rules themselves belong to a library. It is asked for a locale as it stands and then for its language
alone, and English stands in for what it does not know.
-/

namespace Parley

/-- What a library of plural rules knows: the rule of a locale, and the category of a number by it. -/
abbrev Plural.Library := Plural.Counting → Text → Option (Float → Option Plural.Category)

/-- A locale by its name, and the library that has its rules. -/
structure Locale where
  name : Text
  rules : Plural.Library

namespace Locale

open Plural

/-- The name up to its first hyphen or underscore. -/
def language (locale : Locale) : Text :=
  locale.name.takeWhile fun c => c != '-' && c != '_'

def rule? (locale : Locale) (counting : Counting) : Option (Float → Option Category) :=
  [locale.name, locale.language, "en".toList].findSome? (locale.rules counting)

/-- The category of a number. It is `other` where there is no rule, or where the rule has none for it. -/
def category (locale : Locale) (counting : Counting) (x : Float) : Category :=
  ((locale.rule? counting).bind fun rule => rule x).getD .other

end Locale

end Parley
