import BoxDescent.Minimize
import BoxDescent.Proofs.Run.Course

/-!
# Problems that are refused

A problem is refused for its settings, for its bounds, or for the dimension of its initial
point, in this order.  What the objective answers never matters: a problem without such a
fault is run to its end.
-/

namespace BoxDescent

variable {α : Type} [Scalar α] {m n : Nat}

/-! ### Values out of order -/

namespace Bound

end Bound

namespace Box

end Box

namespace Box

end Box

/-! ### Outcomes -/

section

variable [Spaced α] [DenseSolver α]

end

/-! ### Settings that are made -/

namespace Choices

end Choices

/-! ### Refusal comes first -/

end BoxDescent
