/-!
This module contains the entries of the task queues. A `ScheduledTask` has either its `fiber` or its
`cb` set. A fiber is named by the number of fibers constructed before it, a callback by the number
of callbacks pushed into a task queue before it.
-/

namespace Koro

abbrev FiberId := Nat

abbrev CallbackId := Nat

inductive ScheduledTask where
  | fiber (f : FiberId)
  | cb (c : CallbackId)
  deriving DecidableEq, Repr

end Koro
