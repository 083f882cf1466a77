import MiniBackend.JobSystem.Proofs.WindowPruning
import MiniBackend.Lib.Runs

/-!
# The sliding window and the log of accepted requests

The ring of the sliding window holds the newest accepted requests, and its running total is what
they cost, as long as the ring has a free slot whenever a request is accepted.
-/

namespace MiniBackend.JobSystem.Proofs.WindowLog

open MiniBackend.Lib.CircularQueue MiniBackend.Lib.Runs MiniBackend.JobSystem.RateLimiter
open MiniBackend.JobSystem.Proofs.WindowPruning

/-- A call of `rl_consume` in which the clock stands still. -/
structure Request where
  cost : ℚ
  now : Int
deriving DecidableEq

structure Logged where
  limiter : Limiter
  log : List RlWindowEntry

def accepts (s : Logged) (r : Request) : Bool := (rlConsume s.limiter r.cost r.now r.now r.now).1

def step (s : Logged) (r : Request) : Logged where
  limiter := (rlConsume s.limiter r.cost r.now r.now r.now).2
  log := if accepts s r then s.log ++ [⟨r.now, r.cost⟩] else s.log

def start (windowSec maxCost : ℚ) : Logged := ⟨rlSlidingWindowInit windowSec maxCost, []⟩

def orOne (x : ℚ) : ℚ := if 0 < x then x else 1

def cutoff (windowSec : ℚ) (now : Int) : Int := max 0 (now - (orOne windowSec).floor)

def counted (windowSec : ℚ) (log : List RlWindowEntry) (now : Int) : List RlWindowEntry :=
  log.filter fun e => decide (cutoff windowSec now ≤ e.timestamp)

def Fits (windowSec maxCost : ℚ) (s : Logged) (r : Request) : Prop :=
  r.cost + totalCost (counted windowSec s.log r.now) ≤ orOne maxCost

/-- The limiter decides as the log does. -/
def Agrees (windowSec maxCost : ℚ) (s : Logged) (r : Request) : Prop :=
  accepts s r = true ↔ Fits windowSec maxCost s r

/-- A request that fits finds fewer requests that count than the ring has slots. -/
def FreeSlot (windowSec maxCost : ℚ) (s : Logged) (r : Request) : Prop :=
  Fits windowSec maxCost s r → (counted windowSec s.log r.now).length < rlWindowLen

instance (windowSec maxCost : ℚ) (s : Logged) (r : Request) :
    Decidable (Fits windowSec maxCost s r) :=
  inferInstanceAs (Decidable (_ ≤ orOne maxCost))

instance (windowSec maxCost : ℚ) (s : Logged) (r : Request) :
    Decidable (Agrees windowSec maxCost s r) :=
  inferInstanceAs (Decidable (_ ↔ _))

instance (windowSec maxCost : ℚ) (s : Logged) (r : Request) :
    Decidable (FreeSlot windowSec maxCost s r) :=
  inferInstanceAs (Decidable (_ → _))

/-! ## The ring -/

structure Accounted (sw : RlSlidingWindow) : Prop where
  head_lt : sw.head < rlWindowLen
  total : sw.currentCost = totalCost (entriesOf sw)
  sorted : (entriesOf sw).Pairwise fun a b => a.timestamp ≤ b.timestamp
  positive : ∀ e ∈ entriesOf sw, 0 < e.cost

theorem Accounted.total_nonneg {sw : RlSlidingWindow} (h : Accounted sw) : 0 ≤ sw.currentCost := by
  rw [h.total, totalCost]
  apply List.sum_nonneg
  intro cost hcost
  obtain ⟨e, he, rfl⟩ := List.mem_map.mp hcost
  exact (h.positive e he).le

theorem dropWhile_tooOld {entries : List RlWindowEntry}
    (h : entries.Pairwise fun a b => a.timestamp ≤ b.timestamp) (since : Int) :
    entries.dropWhile (tooOld since) =
      entries.filter fun e => decide (since ≤ e.timestamp) := by
  induction entries with
  | nil => rfl
  | cons e entries ih =>
      rw [List.pairwise_cons] at h
      by_cases hold : e.timestamp < since
      · rw [List.dropWhile_cons_of_pos (by simpa [tooOld] using hold),
          List.filter_cons_of_neg (by simpa using hold)]
        exact ih h.2
      · rw [List.dropWhile_cons_of_neg (by simpa [tooOld] using hold)]
        symm
        rw [List.filter_eq_self]
        intro a ha
        rw [decide_eq_true_eq]
        rcases List.mem_cons.mp ha with rfl | ha
        · exact not_lt.mp hold
        · exact (not_lt.mp hold).trans (h.1 a ha)

theorem Accounted.pruned {sw sw' : RlSlidingWindow} (h : Accounted sw) {since : Int}
    (hpruned : Pruned since sw sw') : Accounted sw' := by
  have hsplit := List.takeWhile_append_dropWhile (p := tooOld since) (l := entriesOf sw)
  refine ⟨hpruned.head_lt, ?_, ?_, ?_⟩
  · have htotal := h.total
    rw [← hsplit, totalCost, List.map_append, List.sum_append] at htotal
    rw [hpruned.cost, hpruned.kept, htotal, totalCost, totalCost, add_sub_cancel_left]
  · rw [hpruned.kept]
    exact h.sorted.sublist (List.dropWhile_sublist _)
  · rw [hpruned.kept]
    exact fun e he => h.positive e ((List.dropWhile_sublist _).subset he)

theorem Accounted.prunes {sw : RlSlidingWindow} (h : Accounted sw) (now : Int) :
    Pruned (cutoffOf sw now) sw (rlSlidingPrune sw now) := by
  have hpruned := pruneLoop_spec (cutoffOf sw now) h.head_lt le_rfl
  have hnonneg := (h.pruned hpruned).total_nonneg
  rw [rlSlidingPrune_eq, clampCost, if_neg (not_lt.mpr hnonneg)]
  exact hpruned

theorem Accounted.push {sw : RlSlidingWindow} (h : Accounted sw) (hfree : sw.count < rlWindowLen)
    {e : RlWindowEntry} (hcost : 0 < e.cost) (hlast : ∀ a ∈ entriesOf sw, a.timestamp ≤ e.timestamp)
    {sw' : RlSlidingWindow} (hpush : ringOf sw' = (ringOf sw).push rlWindowLen e)
    (htotal : sw'.currentCost = sw.currentCost + e.cost) :
    Accounted sw' ∧ entriesOf sw' = entriesOf sw ++ [e] := by
  have hring := ringOf_wellFormed h.head_lt
  have hentries : entriesOf sw' = entriesOf sw ++ [e] := by
    rw [entriesOf, hpush]
    exact hring.contents_push hfree e
  have hhead : sw'.head = sw.head := congrArg RingBuffer.head hpush
  refine ⟨⟨hhead ▸ h.head_lt, ?_, ?_, ?_⟩, hentries⟩
  · rw [hentries, totalCost, List.map_append, List.sum_append, htotal, h.total]
    simp [totalCost]
  · rw [hentries, List.pairwise_append]
    refine ⟨h.sorted, List.pairwise_singleton _ _, fun a ha b hb => ?_⟩
    rw [List.mem_singleton.mp hb]
    exact hlast a ha
  · rw [hentries]
    intro a ha
    rcases List.mem_append.mp ha with ha | ha
    · exact h.positive a ha
    · rw [List.mem_singleton.mp ha]
      exact hcost

/-! ## The window against the log -/

variable {windowSec maxCost : ℚ}

/-- From the time `clock` on the ring and the log have the same requests that count. -/
structure Tracks (windowSec maxCost : ℚ) (clock : Int) (sw : RlSlidingWindow)
    (log : List RlWindowEntry) : Prop where
  window : sw.windowSec = orOne windowSec
  limit : sw.maxCost = orOne maxCost
  accounted : Accounted sw
  recent : ∀ e ∈ entriesOf sw, e.timestamp ≤ clock
  same : ∀ since, cutoff windowSec clock ≤ since →
    ((entriesOf sw).filter fun e => decide (since ≤ e.timestamp)) =
      log.filter fun e => decide (since ≤ e.timestamp)

theorem cutoff_mono {now now' : Int} (h : now ≤ now') :
    cutoff windowSec now ≤ cutoff windowSec now' := by
  rw [cutoff, cutoff]
  omega

variable {clock : Int} {sw : RlSlidingWindow} {log : List RlWindowEntry}

theorem Tracks.cutoffOf_eq (h : Tracks windowSec maxCost clock sw log) (now : Int) :
    cutoffOf sw now = cutoff windowSec now := by
  rw [cutoffOf, cutoff, h.window]
  omega

theorem Tracks.prune (h : Tracks windowSec maxCost clock sw log) {now : Int} (hnow : clock ≤ now) :
    Tracks windowSec maxCost now (rlSlidingPrune sw now) log ∧
      entriesOf (rlSlidingPrune sw now) = counted windowSec log now := by
  have hpruned := h.accounted.prunes now
  have hentries := hpruned.kept
  rw [dropWhile_tooOld h.accounted.sorted, h.cutoffOf_eq] at hentries
  have hcounted : entriesOf (rlSlidingPrune sw now) = counted windowSec log now :=
    hentries.trans (h.same (cutoff windowSec now) (cutoff_mono hnow))
  have hsame := hpruned.same
  refine ⟨⟨hsame.window.trans h.window, hsame.limit.trans h.limit, h.accounted.pruned hpruned, ?_,
    ?_⟩, hcounted⟩
  · intro e he
    rw [hentries] at he
    exact (h.recent e (List.mem_of_mem_filter he)).trans hnow
  · intro since hsince
    rw [hcounted, counted, List.filter_filter]
    apply List.filter_congr
    intro e _
    rw [← Bool.decide_and, decide_eq_decide]
    omega

def pushed (sw : RlSlidingWindow) (e : RlWindowEntry) : RlSlidingWindow :=
  { sw with
    entries := Function.update sw.entries ((sw.head + sw.count) % rlWindowLen) e
    currentCost := sw.currentCost + e.cost
    count := sw.count + 1 }

theorem ringOf_pushed (sw : RlSlidingWindow) (e : RlWindowEntry) :
    ringOf (pushed sw e) = (ringOf sw).push rlWindowLen e := by
  rw [ringOf, pushed, RingBuffer.push, ringOf]
  simp only [Nat.mod_add_mod, Nat.add_assoc]

theorem Tracks.pushed (h : Tracks windowSec maxCost clock sw log) {cost : ℚ} (hcost : 0 < cost)
    (hfree : sw.count < rlWindowLen) :
    Tracks windowSec maxCost clock (pushed sw ⟨clock, cost⟩) (log ++ [⟨clock, cost⟩]) := by
  obtain ⟨haccounted, hentries⟩ := h.accounted.push hfree hcost h.recent
    (ringOf_pushed sw ⟨clock, cost⟩) rfl
  refine ⟨h.window, h.limit, haccounted, ?_, ?_⟩
  · intro e he
    rw [hentries] at he
    rcases List.mem_append.mp he with he | he
    · exact h.recent e he
    · rw [List.mem_singleton.mp he]
  · intro since hsince
    rw [hentries, List.filter_append, List.filter_append, h.same since hsince]

theorem Tracks.consume (h : Tracks windowSec maxCost clock sw log) {cost : ℚ} (hcost : 0 < cost)
    {now : Int} (hnow : clock ≤ now)
    (hfree : cost + totalCost (counted windowSec log now) ≤ orOne maxCost →
      (counted windowSec log now).length < rlWindowLen) :
    ∃ ok sw', rlConsume (.sliding sw) cost now now now = (ok, .sliding sw') ∧
      (ok = true ↔ cost + totalCost (counted windowSec log now) ≤ orOne maxCost) ∧
      Tracks windowSec maxCost now sw' (if ok then log ++ [⟨now, cost⟩] else log) := by
  have hpruned := (h.prune hnow).1.prune (le_refl now)
  set pruned := rlSlidingPrune (rlSlidingPrune sw now) now with hprune
  have htotal : pruned.currentCost = totalCost (counted windowSec log now) := by
    rw [hpruned.1.accounted.total, hpruned.2]
  have hroom : pruned.currentCost + cost ≤ pruned.maxCost ↔
      cost + totalCost (counted windowSec log now) ≤ orOne maxCost := by
    rw [htotal, hpruned.1.limit, add_comm]
  rw [rlConsume, if_neg (not_le.mpr hcost)]
  dsimp only
  rw [slidingConsume, ← hprune]
  dsimp only
  by_cases hfits : pruned.currentCost + cost ≤ pruned.maxCost
  · rw [if_pos hfits]
    have hslot : pruned.count < rlWindowLen := by
      have hlength := hfree (hroom.mp hfits)
      rw [← hpruned.2, length_entriesOf] at hlength
      exact hlength
    refine ⟨true, _, rfl, iff_of_true rfl (hroom.mp hfits), ?_⟩
    exact hpruned.1.pushed hcost hslot
  · rw [if_neg hfits]
    exact ⟨false, pruned, rfl, iff_of_false Bool.false_ne_true fun h => hfits (hroom.mpr h),
      hpruned.1⟩

/-! ## Runs -/

theorem tracks_start (windowSec maxCost : ℚ) (clock : Int) :
    ∃ sw, (start windowSec maxCost).limiter = .sliding sw ∧
      Tracks windowSec maxCost clock sw (start windowSec maxCost).log := by
  have hnil (sw : RlSlidingWindow) (h : sw.count = 0) : entriesOf sw = [] :=
    RingBuffer.contents_eq_nil_iff.mpr h
  refine ⟨_, rfl, rfl, rfl, ⟨Nat.zero_lt_succ 255, ?_, ?_, ?_⟩, ?_, ?_⟩
  · rw [hnil _ rfl]
    rfl
  · rw [hnil _ rfl]
    exact List.Pairwise.nil
  · rw [hnil _ rfl]
    exact fun e he => absurd he List.not_mem_nil
  · rw [hnil _ rfl]
    exact fun e he => absurd he List.not_mem_nil
  · rw [hnil _ rfl]
    exact fun _ _ => rfl

theorem agrees_from {s : Logged} {requests : List Request} (hlimiter : s.limiter = .sliding sw)
    (h : Tracks windowSec maxCost clock sw s.log) (hcosts : ∀ r ∈ requests, 0 < r.cost)
    (hclock : ∀ r ∈ requests, clock ≤ r.now)
    (hsorted : requests.Pairwise fun a b => a.now ≤ b.now)
    (hfree : Always step (FreeSlot windowSec maxCost) s requests) :
    Always step (Agrees windowSec maxCost) s requests := by
  induction requests generalizing s sw clock with
  | nil => trivial
  | cons r requests ih =>
      rw [List.pairwise_cons] at hsorted
      obtain ⟨ok, sw', hconsume, hok, htracks⟩ := h.consume (hcosts r List.mem_cons_self)
        (hclock r List.mem_cons_self) hfree.1
      have haccepts : accepts s r = ok := by rw [accepts, hlimiter, hconsume]
      have hnext : (step s r).limiter = .sliding sw' := by rw [step, hlimiter, hconsume]
      have hlog : (step s r).log = if ok then s.log ++ [⟨r.now, r.cost⟩] else s.log := by
        rw [step, haccepts]
      refine ⟨?_, ih hnext (hlog ▸ htracks) (fun q hq => hcosts q (List.mem_cons_of_mem r hq))
        hsorted.1 hsorted.2 hfree.2⟩
      rw [Agrees, haccepts]
      exact hok

/-- As long as the ring has a free slot for each request that fits, the limiter decides as a log
of all accepted requests does. -/
theorem agrees_of_freeSlot (windowSec maxCost : ℚ) {requests : List Request}
    (hcosts : ∀ r ∈ requests, 0 < r.cost)
    (hsorted : requests.Pairwise fun a b => a.now ≤ b.now)
    (hfree : Always step (FreeSlot windowSec maxCost) (start windowSec maxCost) requests) :
    Always step (Agrees windowSec maxCost) (start windowSec maxCost) requests := by
  cases requests with
  | nil => trivial
  | cons r requests =>
      obtain ⟨sw, hlimiter, htracks⟩ := tracks_start windowSec maxCost r.now
      refine agrees_from hlimiter htracks hcosts ?_ hsorted hfree
      intro q hq
      rcases List.mem_cons.mp hq with rfl | hq
      · exact le_rfl
      · exact (List.pairwise_cons.mp hsorted).1 q hq

def fewRequests : List Request := [⟨3, 100⟩, ⟨3, 100⟩, ⟨2, 130⟩, ⟨3, 160⟩, ⟨3, 161⟩]

theorem agrees_of_freeSlot_fewRequests :
    Always step (Agrees 60 5) (start 60 5) fewRequests :=
  agrees_of_freeSlot 60 5 (by decide +kernel) (by decide +kernel) (by decide +kernel)

/-- As many requests as the ring has slots at one time, one more within the window, and one when
only that last one counts. -/
def fullRing : List Request := List.replicate 256 ⟨1, 1000⟩ ++ [⟨1, 1050⟩, ⟨1, 1065⟩]

/-- The request at 1050 overwrites the oldest one, and so hides the others from the loop that
drops them: the one at 1065 is refused. -/
theorem full_ring_disagrees :
    (∀ r ∈ fullRing, 0 < r.cost) ∧ (fullRing.Pairwise fun a b => a.now ≤ b.now) ∧
      ¬Always step (Agrees 60 257) (start 60 257) fullRing := by
  decide +kernel

end MiniBackend.JobSystem.Proofs.WindowLog
