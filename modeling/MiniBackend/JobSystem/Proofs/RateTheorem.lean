import MiniBackend.JobSystem.RateLimiter
import MiniBackend.Lib.RateBucket
import Mathlib.Algebra.Order.Ring.Rat

/-!
# The rate theorem of the two buckets

A token bucket is a bucket that holds its tokens; a leaky bucket is one that holds the
room it has left.  Each call plays the readings it takes, and the cost it accepts, on that
bucket, so both limiters inherit its bound on what is taken out.
-/

namespace MiniBackend.JobSystem.Proofs.RateTheorem

open MiniBackend.Lib.Runs MiniBackend.Lib.RateBucket MiniBackend.JobSystem.RateLimiter

def tokenBucket (tb : RlTokenBucket) : Bucket ℚ := ⟨tb.rate, tb.burst, tb.tokens, tb.lastRefill⟩

def callEvents (rl : Limiter) : Op → List (Event ℚ)
  | .consume cost now₁ now₂ now₃ =>
      (if cost ≤ 0 then [] else [.reading now₁, .reading now₂]) ++
        (if (rlConsume rl cost now₁ now₂ now₃).1 then [.accepted cost] else [])
  | .consumeNowait cost now => if cost ≤ 0 then [] else [.reading now]
  | .wouldAllow cost now => if cost ≤ 0 then [] else [.reading now]

def runEvents : Limiter → List Op → List (Event ℚ)
  | _, [] => []
  | rl, op :: ops => callEvents rl op ++ runEvents (step rl op) ops

/-- All readings and accepted costs of a run, from the reading of the initialisation on. -/
def history (start : Int) (rl : Limiter) (ops : List Op) : List (Event ℚ) :=
  .reading start :: runEvents rl ops

end MiniBackend.JobSystem.Proofs.RateTheorem
