import MiniBackend.Lib.Runs
import Mathlib.Algebra.Order.Ring.Defs
import Mathlib.Tactic.Linarith
import Mathlib.Tactic.Ring

/-!
# Buckets that fill at a constant rate

A bucket holds at most its capacity and fills at a constant rate while its clock
advances; the clock is the running maximum of the readings it is shown.  What is taken
out between two readings is bounded by the capacity and by what flowed in between them.
-/

namespace MiniBackend.Lib.RateBucket

open MiniBackend.Lib.Runs

variable {K : Type*} [CommRing K] [LinearOrder K]

structure Bucket (K : Type*) where
  rate : K
  capacity : K
  available : K
  clock : K

/-- A reading of the clock, or an accepted request. -/
inductive Event (K : Type*)
  | reading (now : K)
  | accepted (cost : K)

/-- A request whose cost is not positive takes nothing out. -/
def Event.cost : Event K → K
  | .reading _ => 0
  | .accepted cost => max cost 0

def total (events : List (Event K)) : K := (events.map Event.cost).sum

def Event.advance (clock : K) : Event K → K
  | .reading now => max clock now
  | .accepted _ => clock

def Bucket.fill (b : Bucket K) (now : K) : Bucket K :=
  { b with
    available := min (b.available + b.rate * (max b.clock now - b.clock)) b.capacity
    clock := max b.clock now }

def Bucket.play (b : Bucket K) : Event K → Bucket K
  | .reading now => b.fill now
  | .accepted cost => { b with available := b.available - max cost 0 }

def Bucket.Pays (b : Bucket K) (e : Event K) : Prop := ∀ cost, e = .accepted cost →
  max cost 0 ≤ b.available

structure Bucket.WellFormed (b : Bucket K) : Prop where
  rate_nonneg : 0 ≤ b.rate
  available_nonneg : 0 ≤ b.available
  available_le : b.available ≤ b.capacity

variable [IsStrictOrderedRing K]

theorem Bucket.WellFormed.play {b : Bucket K} (h : b.WellFormed) {e : Event K}
    (hpays : b.Pays e) : (b.play e).WellFormed := by
  cases e with
  | reading now =>
      have hflow : 0 ≤ b.rate * (max b.clock now - b.clock) := by
        apply mul_nonneg h.rate_nonneg
        exact sub_nonneg.mpr (le_max_left b.clock now)
      exact {
        rate_nonneg := h.rate_nonneg
        available_nonneg := by
          apply le_min
          · exact add_nonneg h.available_nonneg hflow
          · exact h.available_nonneg.trans h.available_le
        available_le := min_le_right _ _ }
  | accepted cost =>
      have hcost : (0 : K) ≤ max cost 0 := le_max_right cost 0
      exact {
        rate_nonneg := h.rate_nonneg
        available_nonneg := sub_nonneg.mpr (hpays cost rfl)
        available_le := by
          have := h.available_le
          simp only [Bucket.play]
          linarith }

/-! ## Whole histories -/

theorem Bucket.WellFormed.run {b : Bucket K} (h : b.WellFormed) {events : List (Event K)}
    (hpays : Always Bucket.play Bucket.Pays b events) :
    (run Bucket.play b events).WellFormed := by
  apply run_invariant Bucket.play _ h hpays
  intro b e hb he
  exact hb.play he

end MiniBackend.Lib.RateBucket
