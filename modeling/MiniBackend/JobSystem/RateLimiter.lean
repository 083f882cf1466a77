import Mathlib.Algebra.Order.Ring.Unbundled.Rat
import Mathlib.Logic.Function.Basic

/-!
# `rate_limiter.c`

The four limiters of the job system over exact rational numbers.  Each reading of the
clock is an argument of its own, in the order in which the call takes them; the limiter
pointer is non-null.
-/

namespace MiniBackend.JobSystem.RateLimiter

structure RlTokenBucket where
  rate : ℚ
  burst : ℚ
  tokens : ℚ
  lastRefill : Int
deriving DecidableEq

structure RlLeakyBucket where
  rate : ℚ
  capacity : ℚ
  waterLevel : ℚ
  lastLeak : Int
deriving DecidableEq

structure RlWindowEntry where
  timestamp : Int
  cost : ℚ
deriving DecidableEq

def rlWindowLen : Nat := 256

structure RlSlidingWindow where
  windowSec : ℚ
  maxCost : ℚ
  currentCost : ℚ
  entries : Nat → RlWindowEntry
  count : Nat
  head : Nat

structure RlFixedWindow where
  windowSec : ℚ
  maxCount : ℚ
  count : ℚ
  windowStart : Int
deriving DecidableEq

/-- The type tag with the member of the union that it selects. -/
inductive Limiter
  | token (tb : RlTokenBucket)
  | leaky (lb : RlLeakyBucket)
  | sliding (sw : RlSlidingWindow)
  | fixed (fw : RlFixedWindow)

/-! ## Token bucket -/

def rlTokenRefill (tb : RlTokenBucket) (now : Int) : RlTokenBucket :=
  if now ≤ tb.lastRefill then tb
  else
    let tokens := tb.tokens + tb.rate * (now - tb.lastRefill : Int)
    { tb with tokens := if tb.burst < tokens then tb.burst else tokens, lastRefill := now }

/-- The burst is compared with the rate as it was passed. -/
def rlTokenBucketInit (rate burst : ℚ) (now : Int) : Limiter :=
  let burst := if rate < burst then burst else rate
  .token { rate := if 0 < rate then rate else 1, burst, tokens := burst, lastRefill := now }

def tokenConsume (tb : RlTokenBucket) (cost : ℚ) (consume : Bool) (now : Int) :
    Bool × RlTokenBucket :=
  let tb := rlTokenRefill tb now
  if cost ≤ tb.tokens then
    (true, if consume then { tb with tokens := tb.tokens - cost } else tb)
  else (false, tb)

/-! ## Leaky bucket -/

def rlLeakyDrain (lb : RlLeakyBucket) (now : Int) : RlLeakyBucket :=
  if now ≤ lb.lastLeak then lb
  else
    let waterLevel := lb.waterLevel - lb.rate * (now - lb.lastLeak : Int)
    { lb with waterLevel := if waterLevel < 0 then 0 else waterLevel, lastLeak := now }

def rlLeakyBucketInit (rate capacity : ℚ) (now : Int) : Limiter :=
  .leaky
    { rate := if 0 < rate then rate else 1
      capacity := if 0 < capacity then capacity else rate
      waterLevel := 0
      lastLeak := now }

def leakyConsume (lb : RlLeakyBucket) (cost : ℚ) (consume : Bool) (now : Int) :
    Bool × RlLeakyBucket :=
  let lb := rlLeakyDrain lb now
  if lb.waterLevel + cost ≤ lb.capacity then
    (true, if consume then { lb with waterLevel := lb.waterLevel + cost } else lb)
  else (false, lb)

/-! ## Sliding window -/

/-- The loop that drops entries older than `cutoff`; `count` rounds are enough. -/
def pruneLoop (cutoff : Int) : Nat → RlSlidingWindow → RlSlidingWindow
  | 0, sw => sw
  | n + 1, sw =>
      if sw.count = 0 then sw
      else if cutoff ≤ (sw.entries sw.head).timestamp then sw
      else
        pruneLoop cutoff n
          { sw with
            currentCost := sw.currentCost - (sw.entries sw.head).cost
            head := (sw.head + 1) % rlWindowLen
            count := sw.count - 1 }

/-- The window is positive, so its conversion to `time_t` rounds down. -/
def rlSlidingPrune (sw : RlSlidingWindow) (now : Int) : RlSlidingWindow :=
  let cutoff := now - sw.windowSec.floor
  let sw := pruneLoop (if cutoff < 0 then 0 else cutoff) sw.count sw
  if sw.currentCost < 0 then { sw with currentCost := 0 } else sw

def rlSlidingWindowInit (windowSec maxCost : ℚ) : Limiter :=
  .sliding
    { windowSec := if 0 < windowSec then windowSec else 1
      maxCost := if 0 < maxCost then maxCost else 1
      currentCost := 0
      entries := fun _ => ⟨0, 0⟩
      count := 0
      head := 0 }

/-- Nothing stops the count at the length of the ring. -/
def slidingConsume (sw : RlSlidingWindow) (cost : ℚ) (consume : Bool) (now₁ now₂ : Int) :
    Bool × RlSlidingWindow :=
  let sw := rlSlidingPrune sw now₁
  if sw.currentCost + cost ≤ sw.maxCost then
    (true,
      if consume then
        let tail := (sw.head + sw.count) % rlWindowLen
        { sw with
          entries := Function.update sw.entries tail ⟨now₂, cost⟩
          currentCost := sw.currentCost + cost
          count := sw.count + 1 }
      else sw)
  else (false, sw)

/-! ## Fixed window -/

def rlFixedWindowInit (windowSec maxCount : ℚ) (now : Int) : Limiter :=
  .fixed
    { windowSec := if 0 < windowSec then windowSec else 1
      maxCount := if 0 < maxCount then maxCount else 1
      count := 0
      windowStart := now }

def fixedConsume (fw : RlFixedWindow) (cost : ℚ) (consume : Bool) (now : Int) :
    Bool × RlFixedWindow :=
  let fw :=
    if fw.windowSec ≤ (now - fw.windowStart : Int) then { fw with windowStart := now, count := 0 }
    else fw
  if fw.count + cost ≤ fw.maxCount then
    (true, if consume then { fw with count := fw.count + cost } else fw)
  else (false, fw)

/-! ## Dispatcher -/

/-- The buckets are brought up to date twice; only the sliding window takes a third
reading, for the time stamp of the entry. -/
def rlConsume (rl : Limiter) (cost : ℚ) (now₁ now₂ now₃ : Int) : Bool × Limiter :=
  if cost ≤ 0 then (true, rl)
  else
    match rl with
    | .token tb =>
        let (ok, tb) := tokenConsume (rlTokenRefill tb now₁) cost true now₂
        (ok, .token tb)
    | .leaky lb =>
        let (ok, lb) := leakyConsume (rlLeakyDrain lb now₁) cost true now₂
        (ok, .leaky lb)
    | .sliding sw =>
        let (ok, sw) := slidingConsume (rlSlidingPrune sw now₁) cost true now₂ now₃
        (ok, .sliding sw)
    | .fixed fw =>
        let (ok, fw) := fixedConsume fw cost true now₁
        (ok, .fixed fw)

def rlConsumeNowait (rl : Limiter) (cost : ℚ) (now : Int) : Bool × Limiter :=
  if cost ≤ 0 then (true, rl)
  else
    match rl with
    | .token tb =>
        let (ok, tb) := tokenConsume tb cost false now
        (ok, .token tb)
    | .leaky lb =>
        let (ok, lb) := leakyConsume lb cost false now
        (ok, .leaky lb)
    | .sliding sw =>
        let (ok, sw) := slidingConsume sw cost false now now
        (ok, .sliding sw)
    | .fixed fw =>
        let (ok, fw) := fixedConsume fw cost false now
        (ok, .fixed fw)

/-- The constant pointer is cast away, so the limiter is brought up to date here too. -/
def rlWouldAllow (rl : Limiter) (cost : ℚ) (now : Int) : Bool × Limiter :=
  rlConsumeNowait rl cost now

/-! ## The time until the next call -/

def tokenTimeUntilNext (tb : RlTokenBucket) (cost : ℚ) : ℚ :=
  let deficit := cost - tb.tokens
  if deficit ≤ 0 then 0 else deficit / tb.rate

def leakyTimeUntilNext (lb : RlLeakyBucket) (cost : ℚ) : ℚ :=
  let available := lb.capacity - lb.waterLevel
  if cost ≤ available then 0 else (cost - available) / lb.rate

/-- The time until the oldest entry is as old as the window is long. -/
def slidingTimeUntilNext (sw : RlSlidingWindow) (cost : ℚ) (now : Int) : ℚ :=
  if sw.currentCost + cost ≤ sw.maxCost then 0
  else if sw.count = 0 then 0
  else
    let timeToExpire : ℚ :=
      ((sw.entries sw.head).timestamp + sw.windowSec.floor - now : Int)
    if timeToExpire < 0 then 0 else timeToExpire

def fixedTimeUntilNext (fw : RlFixedWindow) (now : Int) : ℚ :=
  if fw.count < fw.maxCount then 0 else fw.windowSec - (now - fw.windowStart : Int)

/-- Only the windows read the clock. -/
def rlTimeUntilNext (rl : Limiter) (cost : ℚ) (now : Int) : ℚ :=
  match rl with
  | .token tb => tokenTimeUntilNext tb cost
  | .leaky lb => leakyTimeUntilNext lb cost
  | .sliding sw => slidingTimeUntilNext sw cost now
  | .fixed fw => fixedTimeUntilNext fw now

def rlReset (rl : Limiter) (now : Int) : Limiter :=
  match rl with
  | .token tb => .token { tb with tokens := tb.burst, lastRefill := now }
  | .leaky lb => .leaky { lb with waterLevel := 0, lastLeak := now }
  | .sliding sw => .sliding { sw with currentCost := 0, count := 0, head := 0 }
  | .fixed fw => .fixed { fw with count := 0, windowStart := now }

/-! ## Runs -/

inductive Op
  | consume (cost : ℚ) (now₁ now₂ now₃ : Int)
  | consumeNowait (cost : ℚ) (now : Int)
  | wouldAllow (cost : ℚ) (now : Int)
deriving DecidableEq

def step (rl : Limiter) : Op → Limiter
  | .consume cost now₁ now₂ now₃ => (rlConsume rl cost now₁ now₂ now₃).2
  | .consumeNowait cost now => (rlConsumeNowait rl cost now).2
  | .wouldAllow cost now => (rlWouldAllow rl cost now).2

end MiniBackend.JobSystem.RateLimiter
