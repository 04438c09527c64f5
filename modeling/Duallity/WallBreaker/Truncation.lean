import Duallity.WallBreaker.Paths

/-! A forest that may run out of ids. Its states are the first of the positions of its results, and each but the start has an
    arc into it. -/

namespace Duallity

section Truncation
variable {maxDistance : Nat} {results : List WallBreakerResult} {i pos id : Nat} {r : WallBreakerResult} {key : WallBreakerStateKey}

namespace WallBreakerWfst

end WallBreakerWfst
end Truncation
end Duallity
