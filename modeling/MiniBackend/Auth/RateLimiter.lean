import MiniBackend.Lib.CString
import Mathlib.Data.Rat.Floor

/-!
# `rate_limiter.c` of the security library

Fixed windows, sliding windows and token buckets in one table.  The numbers of the token
buckets are exact rationals; readings of the clock are arguments.  The state of an entry is a
union: a check reads the member of its own algorithm, whichever was written.
-/

namespace MiniBackend.Auth.RateLimit

open MiniBackend.Lib.CString

def rateMaxBuckets : Nat := 4096
def rateMaxKeyLen : Nat := 128

inductive RateAlgo
  | fixedWindow
  | slidingWindow
  | tokenBucket
deriving DecidableEq

inductive RateScope
  | user
  | ip
  | api
  | global
deriving DecidableEq

structure FixedWindowEntry where
  windowStart : Int
  counter : Nat

def slidingSlots : Nat := 256

structure SlidingWindowEntry where
  timestamps : Nat → Int
  head : Nat
  count : Nat

structure TokenBucketEntry where
  tokens : ℚ
  maxTokens : ℚ
  refillRate : ℚ
  lastRefill : Int

/-- The member that was written last. -/
inductive EntryState
  | fixed (e : FixedWindowEntry)
  | sliding (e : SlidingWindowEntry)
  | bucket (e : TokenBucketEntry)

/-- What the members of the union read as.  A member that was written reads as what was
written; anything may come of another one. -/
structure Views where
  fixed : EntryState → FixedWindowEntry
  sliding : EntryState → SlidingWindowEntry
  bucket : EntryState → TokenBucketEntry
  fixed_fixed : ∀ e, fixed (.fixed e) = e
  sliding_sliding : ∀ e, sliding (.sliding e) = e
  bucket_bucket : ∀ e, bucket (.bucket e) = e

structure RateLimitEntry where
  key : CStr
  scope : RateScope
  algorithm : RateAlgo
  state : EntryState
  limit : Nat
  windowSeconds : Nat
  createdAt : Int

structure RateLimiter where
  entries : List RateLimitEntry
  defaultLimit : Nat
  defaultWindowSeconds : Nat

structure RateLimitResult where
  allowed : Bool
  limit : Nat
  remaining : Nat
  resetSeconds : Nat
  resetTime : Int
deriving DecidableEq

/-- The readings of the clock in a check: two when an entry is made, and the one of the check. -/
structure Readings where
  created : Int
  started : Int
  now : Int

def rateLimiterInit (defaultLimit windowSeconds : Nat) : RateLimiter :=
  ⟨[], defaultLimit, windowSeconds⟩

def initialState (algo : RateAlgo) (limit windowSeconds : Nat) (started : Int) : EntryState :=
  match algo with
  | .fixedWindow => .fixed ⟨started, 0⟩
  | .slidingWindow => .sliding ⟨fun _ => 0, 0, 0⟩
  | .tokenBucket => .bucket ⟨limit, limit, (limit : ℚ) / windowSeconds, started⟩

def RateLimitEntry.isFor (entry : RateLimitEntry) (key : CStr) (scope : RateScope) : Bool :=
  entry.key == key && entry.scope == scope

def newEntry (key : CStr) (scope : RateScope) (algo : RateAlgo) (limit windowSeconds : Nat)
    (readings : Readings) : RateLimitEntry :=
  ⟨strncpy key (rateMaxKeyLen - 1), scope, algo,
    initialState algo limit windowSeconds readings.started, limit, windowSeconds, readings.created⟩

/-- The place of the entry in the table. -/
def rateGetOrCreateEntry (rl : RateLimiter) (key : CStr) (scope : RateScope) (algo : RateAlgo)
    (limit windowSeconds : Nat) (readings : Readings) : Option (Nat × RateLimiter) :=
  match rl.entries.findIdx? (·.isFor key scope) with
  | some i => some (i, rl)
  | none =>
      if rateMaxBuckets ≤ rl.entries.length then none
      else
        some (rl.entries.length, { rl with
          entries := rl.entries ++ [newEntry key scope algo limit windowSeconds readings] })

/-- The conversion to `uint32_t`. -/
def toUint32 (z : Int) : Nat := (z % 2 ^ 32).toNat

def rateCheckFixedWindow (views : Views) (entry : RateLimitEntry) (now : Int) :
    RateLimitResult × RateLimitEntry :=
  let fixed := views.fixed entry.state
  let windowEnd := fixed.windowStart + entry.windowSeconds
  let fixed := if windowEnd ≤ now then ⟨now, 0⟩ else fixed
  let allowed : Bool := fixed.counter < entry.limit
  let resetTime := fixed.windowStart + entry.windowSeconds
  let counted := if allowed then { fixed with counter := fixed.counter + 1 } else fixed
  (⟨allowed, entry.limit, if allowed then entry.limit - fixed.counter - 1 else 0,
      toUint32 (resetTime - now), resetTime⟩, { entry with state := .fixed counted })

/-- How many of the slots that the loop reads are not before `cutoff`. -/
def keepCount (sliding : SlidingWindowEntry) (cutoff : Int) : Nat :=
  (List.range sliding.count).countP fun i =>
    cutoff ≤ sliding.timestamps ((sliding.head + sliding.count - 1 - i) % slidingSlots)

def recordTimestamp (sliding : SlidingWindowEntry) (now : Int) : SlidingWindowEntry where
  timestamps := Function.update sliding.timestamps sliding.head now
  head := (sliding.head + 1) % slidingSlots
  count := if sliding.count < slidingSlots then sliding.count + 1 else sliding.count

def rateCheckSlidingWindow (views : Views) (entry : RateLimitEntry) (now : Int) :
    RateLimitResult × RateLimitEntry :=
  let sliding := views.sliding entry.state
  let cutoff := now - entry.windowSeconds
  let keep := keepCount sliding cutoff
  let allowed : Bool := keep < entry.limit
  let recorded := if allowed then recordTimestamp sliding now else sliding
  (⟨allowed, entry.limit, if allowed then entry.limit - keep - 1 else 0, entry.windowSeconds,
      now + entry.windowSeconds⟩,
    { entry with state := .sliding recorded })

def rateCheckTokenBucket (views : Views) (entry : RateLimitEntry) (now : Int) :
    RateLimitResult × RateLimitEntry :=
  let bucket := views.bucket entry.state
  let newTokens := (now - bucket.lastRefill : Int) * bucket.refillRate
  let tokens := bucket.tokens + newTokens
  let tokens := if bucket.maxTokens < tokens then bucket.maxTokens else tokens
  let allowed : Bool := 1 ≤ tokens
  let left := if allowed then tokens - 1 else tokens
  let spent := { bucket with tokens := left, lastRefill := now }
  (⟨allowed, entry.limit, toUint32 ⌊max 0 (tokens - 1)⌋, entry.windowSeconds,
      now + entry.windowSeconds⟩, { entry with state := .bucket spent })

/-- The `switch` of `rate_limiter_check`. -/
def rateCheck (views : Views) (algo : RateAlgo) :
    RateLimitEntry → Int → RateLimitResult × RateLimitEntry :=
  match algo with
  | .fixedWindow => rateCheckFixedWindow views
  | .slidingWindow => rateCheckSlidingWindow views
  | .tokenBucket => rateCheckTokenBucket views

def rateLimiterCheck (views : Views) (rl : RateLimiter) (key : CStr) (scope : RateScope)
    (algo : RateAlgo) (limit windowSeconds : Nat) (readings : Readings) :
    RateLimitResult × RateLimiter :=
  match rateGetOrCreateEntry rl key scope algo limit windowSeconds readings with
  | none => (⟨false, limit, 0, windowSeconds, 0⟩, rl)
  | some (i, rl) =>
      match rl.entries[i]? with
      | none => (⟨false, limit, 0, windowSeconds, 0⟩, rl)
      | some entry =>
          let (result, entry) := rateCheck views algo entry readings.now
          (result, { rl with entries := rl.entries.set i entry })

end MiniBackend.Auth.RateLimit
