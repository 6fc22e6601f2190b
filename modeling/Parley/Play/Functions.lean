import Parley.Table
import Parley.Value
set_option autoImplicit false

/-!
Variables and functions that scripts can use.
-/

namespace Parley.Play

abbrev Store := Table Value

abbrev HostFunction := List Value → Except Text Value

/-- What the name of a function stands for. The built-in function tells which nodes were entered. -/
inductive Callable where
  | visited
  | host (f : HostFunction)

abbrev Functions := Table Callable

def Functions.builtin : Functions :=
  [("visited".toList, .visited)]

def Functions.register (functions : Functions) (name : Text) (f : HostFunction) : Functions :=
  functions.put name (.host f)

end Parley.Play
