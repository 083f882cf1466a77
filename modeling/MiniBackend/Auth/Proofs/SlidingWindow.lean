import MiniBackend.Auth.RateLimiter
import MiniBackend.Lib.CArray
import MiniBackend.Lib.RecentWindow
import MiniBackend.Lib.Runs

/-!
# The sliding windows of `rate_limiter.c`

The loop of `rate_check_sliding_window` goes backwards from `head + count - 1`, which is the
newest timestamp only when the ring has gone round.  Before that it starts among the slots that
were never written and misses the newest timestamp, so the limit is not kept.
-/

namespace MiniBackend.Auth.Proofs.SlidingWindow

open MiniBackend.Auth.RateLimit MiniBackend.Lib.CString MiniBackend.Lib.CArray
open MiniBackend.Lib.Runs MiniBackend.Lib.RecentWindow

/-! ## Checks of a key -/

/-- A call of `rate_limiter_check`. -/
structure Check where
  key : CStr
  scope : RateScope
  algo : RateAlgo
  limit : Nat
  windowSeconds : Nat
  readings : Readings

structure Target where
  key : CStr
  scope : RateScope
  limit : Nat
  window : Nat
  key_short : key.length < rateMaxKeyLen
  limit_pos : 0 < limit
  limit_le : limit ≤ slidingSlots

def Check.isOn (check : Check) (target : Target) : Bool :=
  check.key == target.key && check.scope == target.scope

structure History where
  rl : RateLimiter
  clock : Int
  allowed : List Int

def start (defaultLimit windowSeconds : Nat) : History :=
  ⟨rateLimiterInit defaultLimit windowSeconds, 0, []⟩

def Check.run (check : Check) (views : Views) (rl : RateLimiter) :
    RateLimitResult × RateLimiter :=
  rateLimiterCheck views rl check.key check.scope check.algo check.limit check.windowSeconds
    check.readings

variable (views : Views) (target : Target)

def step (s : History) (check : Check) : History :=
  let (result, rl) := check.run views s.rl
  ⟨rl, check.readings.now,
    if check.isOn target && result.allowed then s.allowed ++ [check.readings.now] else s.allowed⟩

def allowedSince (history : List Int) (cutoff : Int) : Nat :=
  history.countP fun time => decide (cutoff ≤ time)

def allowedWithin (history : List Int) (t : Int) (window : Nat) : Nat :=
  history.countP fun time => decide (t ≤ time ∧ time ≤ t + window)

/-- What is asked of a check. -/
structure CheckHolds (s : History) (check : Check) : Prop where
  sound : ∀ t, allowedWithin (step views target s check).allowed t target.window ≤ target.limit
  complete : check.isOn target = true → (check.run views s.rl).1.allowed = false →
    target.limit ≤ allowedSince s.allowed (check.readings.now - target.window)

def placeOf (rl : RateLimiter) : Option Nat :=
  rl.entries.findIdx? (·.isFor target.key target.scope)

/-- The clock does not go back, and the checks of the key are for a sliding window with its
parameters and find an entry or room for one. -/
structure Admissible (s : History) (check : Check) : Prop where
  forward : s.clock ≤ check.readings.now
  parameters : check.isOn target = true → check.algo = .slidingWindow ∧
    check.limit = target.limit ∧ check.windowSeconds = target.window
  room : check.isOn target = true → placeOf target s.rl = none →
    s.rl.entries.length < rateMaxBuckets

/-- No longer key takes the place of the key: an entry is not made for another key that is the
key when it is cut. -/
def NotCut (s : History) (check : Check) : Prop :=
  check.isOn target = false → placeOf target s.rl = none →
    strncpy check.key (rateMaxKeyLen - 1) = target.key → check.scope ≠ target.scope

def ringOf (rl : RateLimiter) : SlidingWindowEntry :=
  match (placeOf target rl).bind (rl.entries[·]?) with
  | some entry => views.sliding entry.state
  | none => ⟨fun _ => 0, 0, 0⟩

def recordedSince (sliding : SlidingWindowEntry) (cutoff : Int) : Nat :=
  (List.range sliding.count).countP fun i => decide (cutoff ≤ sliding.timestamps i)

/-- The ring has gone round, or the window goes back to the beginning of time, or it has room
for one more request. -/
def RingOk (s : History) (check : Check) : Prop :=
  check.isOn target = true → (ringOf views target s.rl).count = slidingSlots ∨
    check.readings.now ≤ target.window ∨
    recordedSince (ringOf views target s.rl) (check.readings.now - target.window) < target.limit

/-! ## The ring -/

structure Ring (history : List Int) (sliding : SlidingWindowEntry) : Prop where
  holds : Holds slidingSlots history sliding.timestamps sliding.head
    (decide (slidingSlots ≤ history.length))
  count_eq : sliding.count = min history.length slidingSlots
  unused : ∀ i, history.length ≤ i → sliding.timestamps i = 0

theorem ring_nil : Ring [] ⟨fun _ => 0, 0, 0⟩ where
  holds := holds_nil (by decide) _
  count_eq := rfl
  unused _ _ := rfl

theorem slidingSlots_pos : 0 < slidingSlots := by decide

theorem Ring.head_lt {history : List Int} {sliding : SlidingWindowEntry}
    (h : Ring history sliding) : sliding.head < slidingSlots := by
  rw [h.holds.pos_eq]
  exact Nat.mod_lt _ slidingSlots_pos

theorem Ring.record {history : List Int} {sliding : SlidingWindowEntry}
    (h : Ring history sliding) (now : Int) :
    Ring (history ++ [now]) (recordTimestamp sliding now) where
  holds := by
    have hwrite := h.holds.write slidingSlots_pos now
    rw [hwrite.filled_eq] at hwrite
    have hlt := h.head_lt
    have hhead : (sliding.head + 1) % slidingSlots =
        if slidingSlots ≤ sliding.head + 1 then 0 else sliding.head + 1 := by
      split
      · rw [show sliding.head + 1 = slidingSlots by omega, Nat.mod_self]
      · exact Nat.mod_eq_of_lt (by omega)
    unfold recordTimestamp
    dsimp only
    rw [hhead]
    exact hwrite
  count_eq := by
    have hcount := h.count_eq
    unfold recordTimestamp
    dsimp only
    rw [List.length_append, List.length_singleton]
    split <;> omega
  unused i hi := by
    rw [List.length_append, List.length_singleton] at hi
    have hhead : sliding.head ≤ history.length := by
      rw [h.holds.pos_eq]
      exact Nat.mod_le _ _
    unfold recordTimestamp
    dsimp only
    rw [Function.update_of_ne (by omega)]
    exact h.unused i (by omega)

/-! ## What the loop counts -/

theorem allowedSince_eq_recordedSince {history : List Int} {sliding : SlidingWindowEntry}
    (h : Ring history sliding) (hshort : history.length ≤ slidingSlots) (cutoff : Int) :
    allowedSince history cutoff = recordedSince sliding cutoff := by
  have hcount : sliding.count = history.length := by
    rw [h.count_eq]
    omega
  calc allowedSince history cutoff
      = ((List.range history.length).map sliding.timestamps).countP
          (fun time => decide (cutoff ≤ time)) := by rw [h.holds.map_range hshort]; rfl
    _ = recordedSince sliding cutoff := by
        rw [List.countP_map, recordedSince, hcount]
        rfl

theorem keepCount_of_full {history : List Int} {sliding : SlidingWindowEntry}
    (h : Ring history sliding) (hsorted : history.Pairwise (· ≤ ·))
    (hfull : slidingSlots ≤ history.length) (cutoff : Int) :
    keepCount sliding cutoff = min slidingSlots (allowedSince history cutoff) := by
  have hcount : sliding.count = slidingSlots := by
    rw [h.count_eq]
    omega
  have hnewest : history.reverse.Pairwise
      fun a b => decide (cutoff ≤ b) = true → decide (cutoff ≤ a) = true := by
    rw [List.pairwise_reverse]
    refine hsorted.imp ?_
    intro a b hab ha
    rw [decide_eq_true_iff] at ha ⊢
    exact ha.trans hab
  calc keepCount sliding cutoff
      = ((List.range slidingSlots).map fun i =>
          sliding.timestamps ((sliding.head + slidingSlots - 1 - i) % slidingSlots)).countP
          (fun time => decide (cutoff ≤ time)) := by
        rw [List.countP_map, keepCount, hcount]
        rfl
    _ = (history.reverse.take slidingSlots).countP (fun time => decide (cutoff ≤ time)) := by
        rw [h.holds.map_backwards hfull]
    _ = min slidingSlots (allowedSince history cutoff) := by
        rw [countP_take_of_pairwise hnewest, List.countP_reverse]
        rfl

theorem keepCount_of_nonpos {history : List Int} {sliding : SlidingWindowEntry}
    (h : Ring history sliding) (hpast : ∀ time ∈ history, 0 ≤ time) {cutoff : Int}
    (hshort : history.length < slidingSlots) (hcutoff : cutoff ≤ 0) :
    keepCount sliding cutoff = allowedSince history cutoff := by
  have hslot : ∀ i < slidingSlots, cutoff ≤ sliding.timestamps i := by
    intro i hi
    rcases Nat.lt_or_ge i history.length with hused | hunused
    · have hentry := h.holds.entry i hused (by omega)
      rw [Nat.mod_eq_of_lt hi] at hentry
      exact hcutoff.trans (hpast _ (List.mem_of_getElem? hentry))
    · rw [h.unused i hunused]
      exact hcutoff
  have hkeep : keepCount sliding cutoff = sliding.count := by
    rw [keepCount, List.countP_eq_length.mpr, List.length_range]
    intro i hi
    rw [decide_eq_true_iff]
    exact hslot _ (Nat.mod_lt _ slidingSlots_pos)
  have hsince : allowedSince history cutoff = history.length := by
    rw [allowedSince, List.countP_eq_length]
    intro time htime
    rw [decide_eq_true_iff]
    exact hcutoff.trans (hpast time htime)
  rw [hkeep, hsince, h.count_eq]
  omega

theorem slot_inj {n i j : Nat} (hi : i < n) (hj : j < n) (hn : n < slidingSlots)
    (heq : (n + n - 1 - i) % slidingSlots = (n + n - 1 - j) % slidingSlots) : i = j := by
  by_contra hne
  rcases Nat.lt_or_gt_of_ne hne with hlt | hlt
  · exact mod_ne_of_lt (by omega) (by omega) heq.symm
  · exact mod_ne_of_lt (by omega) (by omega) heq

/-- The slot of the newest timestamp is none of those that the loop reads before the wrap. -/
theorem slot_ne_newest {n i : Nat} (hi : i < n) (hn : n < slidingSlots) :
    (n + n - 1 - i) % slidingSlots ≠ n - 1 := by
  intro heq
  rw [← Nat.mod_eq_of_lt (show n - 1 < slidingSlots by omega)] at heq
  exact mod_ne_of_lt (show n - 1 < n + n - 1 - i by omega) (by omega) heq.symm

/-- The timestamps before the newest one, when this one is not before `cutoff`. -/
theorem countP_init_le {history : List Int} {sliding : SlidingWindowEntry}
    (h : Ring history sliding) (hsorted : history.Pairwise (· ≤ ·)) {cutoff : Int}
    (hshort : history.length ≤ slidingSlots) :
    ((List.range (history.length - 1)).countP fun i => decide (cutoff ≤ sliding.timestamps i)) ≤
      allowedSince history cutoff - 1 := by
  have hcount : sliding.count = history.length := by
    rw [h.count_eq]
    omega
  rw [allowedSince_eq_recordedSince h hshort, recordedSince, hcount]
  cases hlength : history.length with
  | zero => rfl
  | succ m =>
      rw [List.range_succ, List.countP_append, Nat.add_sub_cancel]
      by_cases hnewest : cutoff ≤ sliding.timestamps m
      · rw [List.countP_singleton, if_pos (decide_eq_true hnewest), Nat.add_sub_cancel]
      · have hnone :
            ((List.range m).countP fun i => decide (cutoff ≤ sliding.timestamps i)) = 0 := by
          rw [List.countP_eq_zero]
          intro i hi hrecent
          rw [List.mem_range] at hi
          rw [decide_eq_true_iff] at hrecent
          have hold := h.holds.entry i (by omega) (by omega)
          have hnew := h.holds.entry m (by omega) (by omega)
          rw [Nat.mod_eq_of_lt (by omega), List.getElem?_eq_some_iff] at hold hnew
          obtain ⟨hi', hold⟩ := hold
          obtain ⟨hm', hnew⟩ := hnew
          have hle := List.pairwise_iff_getElem.mp hsorted i m hi' hm' hi
          rw [hold, hnew] at hle
          exact hnewest (hrecent.trans hle)
        rw [hnone]
        exact Nat.zero_le _

theorem keepCount_le_of_short {history : List Int} {sliding : SlidingWindowEntry}
    (h : Ring history sliding) (hsorted : history.Pairwise (· ≤ ·)) {cutoff : Int}
    (hshort : history.length < slidingSlots) (hcutoff : 0 < cutoff) :
    keepCount sliding cutoff ≤ allowedSince history cutoff - 1 := by
  have hcount : sliding.count = history.length := by
    rw [h.count_eq]
    omega
  have hhead : sliding.head = history.length := by
    rw [h.holds.pos_eq]
    exact Nat.mod_eq_of_lt hshort
  let slot : Nat → Nat := fun i => (history.length + history.length - 1 - i) % slidingSlots
  let read : List Nat := (List.range history.length).filter fun i =>
    decide (cutoff ≤ sliding.timestamps (slot i))
  have hread : ∀ i ∈ read, i < history.length ∧ cutoff ≤ sliding.timestamps (slot i) := by
    intro i hi
    have hmem := List.mem_filter.mp hi
    exact ⟨List.mem_range.mp hmem.1, of_decide_eq_true hmem.2⟩
  have hnodup : (read.map slot).Nodup := by
    apply List.Nodup.map_on
    · intro i hi j hj heq
      exact slot_inj (hread i hi).1 (hread j hj).1 hshort heq
    · exact List.nodup_range.filter _
  have hsubset : read.map slot ⊆ (List.range (history.length - 1)).filter
      fun i => decide (cutoff ≤ sliding.timestamps i) := by
    intro j hj
    obtain ⟨i, hi, rfl⟩ := List.mem_map.mp hj
    have hrecent := (hread i hi).2
    have hused : slot i < history.length := by
      by_contra hunused
      rw [h.unused _ (Nat.le_of_not_lt hunused)] at hrecent
      exact absurd hcutoff (not_lt.mpr hrecent)
    have hne : slot i ≠ history.length - 1 := slot_ne_newest (hread i hi).1 hshort
    rw [List.mem_filter, List.mem_range]
    exact ⟨by omega, decide_eq_true hrecent⟩
  calc keepCount sliding cutoff
      = (read.map slot).length := by
        rw [keepCount, hcount, hhead, List.countP_eq_length_filter, List.length_map]
    _ ≤ _ := (hnodup.subperm hsubset).length_le
    _ = _ := List.countP_eq_length_filter.symm
    _ ≤ allowedSince history cutoff - 1 := countP_init_le h hsorted hshort.le

/-! ## What the loop decides -/

theorem keep_lt_iff {history : List Int} {sliding : SlidingWindowEntry}
    (h : Ring history sliding) (hsorted : history.Pairwise (· ≤ ·))
    (hpast : ∀ time ∈ history, 0 ≤ time) {now : Int} {window limit : Nat}
    (hlimit : limit ≤ slidingSlots)
    (hok : sliding.count = slidingSlots ∨ now ≤ window ∨
      recordedSince sliding (now - window) < limit) :
    keepCount sliding (now - window) < limit ↔ allowedSince history (now - window) < limit := by
  rcases Nat.lt_or_ge history.length slidingSlots with hshort | hfull
  · have hsince := allowedSince_eq_recordedSince h hshort.le (now - window)
    rcases lt_or_ge 0 (now - window : Int) with hlate | hearly
    · have hle := keepCount_le_of_short h hsorted hshort hlate
      have hcount := h.count_eq
      omega
    · rw [keepCount_of_nonpos h hpast hshort hearly]
  · rw [keepCount_of_full h hsorted hfull]
    omega

theorem keep_lt_of_not_ok {history : List Int} {sliding : SlidingWindowEntry}
    (h : Ring history sliding) (hsorted : history.Pairwise (· ≤ ·)) {now : Int}
    {window limit : Nat} (hlimit : 0 < limit)
    (hwithin : allowedSince history (now - window) ≤ limit)
    (hnot : ¬ (sliding.count = slidingSlots ∨ now ≤ window ∨
      recordedSince sliding (now - window) < limit)) :
    keepCount sliding (now - window) < limit ∧
      limit ≤ allowedSince history (now - window) := by
  rw [not_or, not_or] at hnot
  have hcount := h.count_eq
  have hshort : history.length < slidingSlots := by omega
  have hsince := allowedSince_eq_recordedSince h hshort.le (now - window)
  have hle := keepCount_le_of_short h hsorted hshort (show 0 < now - window by omega)
  exact ⟨by omega, by omega⟩

/-! ## Counts in intervals -/

theorem allowedWithin_append (history : List Int) (now t : Int) (window : Nat) :
    allowedWithin (history ++ [now]) t window =
      allowedWithin history t window + if t ≤ now ∧ now ≤ t + window then 1 else 0 := by
  rw [allowedWithin, List.countP_append, List.countP_singleton]
  simp only [decide_eq_true_iff]
  rfl

/-- An interval that has `now` begins at `now - window` or later. -/
theorem allowedWithin_le_since {history : List Int} {now t : Int} {window : Nat}
    (hnow : now ≤ t + window) :
    allowedWithin history t window ≤ allowedSince history (now - window) := by
  apply List.countP_mono_left
  intro time _ hwithin
  rw [decide_eq_true_iff] at hwithin ⊢
  omega

theorem allowedWithin_eq_since {history : List Int} {now : Int} {window : Nat}
    (hpast : ∀ time ∈ history, time ≤ now) :
    allowedWithin history (now - window) window = allowedSince history (now - window) := by
  apply List.countP_congr
  intro time htime
  have hle := hpast time htime
  rw [decide_eq_true_iff, decide_eq_true_iff]
  omega

/-! ## The table -/

theorem rateCheck_isFor (algo : RateAlgo) (entry : RateLimitEntry) (now : Int) (key : CStr)
    (scope : RateScope) :
    (rateCheck views algo entry now).2.isFor key scope = entry.isFor key scope := by
  cases algo <;> rfl

theorem isFor_newEntry {check : Check} {key : CStr} {scope : RateScope} :
    (newEntry check.key check.scope check.algo check.limit check.windowSeconds
      check.readings).isFor key scope = true ↔
      strncpy check.key (rateMaxKeyLen - 1) = key ∧ check.scope = scope := by
  rw [RateLimitEntry.isFor, Bool.and_eq_true, beq_iff_eq, beq_iff_eq]
  rfl

theorem run_found {rl : RateLimiter} {check : Check} {i : Nat} {entry : RateLimitEntry}
    (hfind : rl.entries.findIdx? (·.isFor check.key check.scope) = some i)
    (hget : rl.entries[i]? = some entry) :
    check.run views rl =
      ((rateCheck views check.algo entry check.readings.now).1, { rl with
        entries := rl.entries.set i (rateCheck views check.algo entry check.readings.now).2 }) := by
  rw [Check.run, rateLimiterCheck, rateGetOrCreateEntry, hfind]
  dsimp only
  rw [hget]

theorem run_full {rl : RateLimiter} {check : Check}
    (hfind : rl.entries.findIdx? (·.isFor check.key check.scope) = none)
    (hfull : rateMaxBuckets ≤ rl.entries.length) : (check.run views rl).2 = rl := by
  rw [Check.run, rateLimiterCheck, rateGetOrCreateEntry, hfind]
  dsimp only
  rw [if_pos hfull]

theorem run_new {rl : RateLimiter} {check : Check}
    (hfind : rl.entries.findIdx? (·.isFor check.key check.scope) = none)
    (hroom : rl.entries.length < rateMaxBuckets) :
    let entry := newEntry check.key check.scope check.algo check.limit check.windowSeconds
      check.readings
    check.run views rl =
      ((rateCheck views check.algo entry check.readings.now).1, { rl with
        entries := rl.entries ++ [(rateCheck views check.algo entry check.readings.now).2] }) := by
  intro entry
  rw [Check.run, rateLimiterCheck, rateGetOrCreateEntry, hfind]
  dsimp only
  rw [if_neg (Nat.not_le.mpr hroom)]
  dsimp only
  rw [List.getElem?_concat_length]
  dsimp only
  rw [List.set_append_right _ _ (Nat.le_refl _), Nat.sub_self]
  rfl

theorem isFor_of_findIdx? {l : List RateLimitEntry} {key : CStr} {scope : RateScope} {i : Nat}
    (hfind : l.findIdx? (·.isFor key scope) = some i) :
    ∃ entry, l[i]? = some entry ∧ entry.key = key ∧ entry.scope = scope := by
  rw [List.findIdx?_eq_some_iff_getElem] at hfind
  obtain ⟨hi, hfor, -⟩ := hfind
  rw [RateLimitEntry.isFor, Bool.and_eq_true, beq_iff_eq, beq_iff_eq] at hfor
  exact ⟨l[i], List.getElem?_eq_getElem hi, hfor.1, hfor.2⟩

/-! ## The entry of the key -/

structure EntryTracks (history : List Int) (entry : RateLimitEntry) : Prop where
  limit_eq : entry.limit = target.limit
  window_eq : entry.windowSeconds = target.window
  ring : ∃ sliding, entry.state = .sliding sliding ∧ Ring history sliding

structure Tracks (s : History) : Prop where
  nonneg : 0 ≤ s.clock
  sorted : s.allowed.Pairwise (· ≤ ·)
  past : ∀ time ∈ s.allowed, 0 ≤ time ∧ time ≤ s.clock
  absent : placeOf target s.rl = none → s.allowed = []
  present : ∀ i, placeOf target s.rl = some i →
    ∃ entry, s.rl.entries[i]? = some entry ∧ EntryTracks target s.allowed entry

variable {views target}

theorem EntryTracks.sliding {history : List Int} {entry : RateLimitEntry}
    (h : EntryTracks target history entry) : Ring history (views.sliding entry.state) := by
  obtain ⟨sliding, hstate, hring⟩ := h.ring
  rw [hstate, views.sliding_sliding]
  exact hring

theorem Tracks.ringOf {s : History} (h : Tracks target s) (views : Views) :
    Ring s.allowed (ringOf views target s.rl) := by
  unfold SlidingWindow.ringOf
  cases hplace : placeOf target s.rl with
  | none =>
      rw [h.absent hplace]
      exact ring_nil
  | some i =>
      obtain ⟨entry, hget, htracks⟩ := h.present i hplace
      rw [Option.bind_some, hget]
      exact htracks.sliding

theorem EntryTracks.new {check : Check} (hparams : check.algo = .slidingWindow ∧
    check.limit = target.limit ∧ check.windowSeconds = target.window) :
    EntryTracks target [] (newEntry check.key check.scope check.algo check.limit
      check.windowSeconds check.readings) := by
  obtain ⟨halgo, hlimit, hwindow⟩ := hparams
  rw [halgo, hlimit, hwindow]
  exact ⟨rfl, rfl, _, rfl, ring_nil⟩

theorem EntryTracks.check {history : List Int} {entry : RateLimitEntry}
    (h : EntryTracks target history entry) (views : Views) (now : Int) :
    let keep := keepCount (views.sliding entry.state) (now - target.window)
    (rateCheckSlidingWindow views entry now).1.allowed = decide (keep < target.limit) ∧
      EntryTracks target (if keep < target.limit then history ++ [now] else history)
        (rateCheckSlidingWindow views entry now).2 := by
  intro keep
  have hring : Ring history (views.sliding entry.state) := h.sliding
  have hkeep : keepCount (views.sliding entry.state) (now - entry.windowSeconds) < entry.limit ↔
      keep < target.limit := by
    rw [h.limit_eq, h.window_eq]
  refine ⟨decide_eq_decide.mpr hkeep, h.limit_eq, h.window_eq, _, rfl, ?_⟩
  by_cases hlt : keep < target.limit
  · rw [if_pos hlt, if_pos (decide_eq_true (hkeep.mpr hlt))]
    exact hring.record now
  · rw [if_neg hlt, if_neg (by simpa using mt hkeep.mp hlt)]
    exact hring

theorem Check.key_eq {check : Check} (hon : check.isOn target = true) :
    check.key = target.key ∧ check.scope = target.scope := by
  rw [Check.isOn, Bool.and_eq_true, beq_iff_eq, beq_iff_eq] at hon
  exact hon

theorem Tracks.run_target {s : History} (h : Tracks target s) (views : Views) {check : Check}
    (hadm : Admissible target s check) (hon : check.isOn target = true) :
    let keep := keepCount (SlidingWindow.ringOf views target s.rl)
      (check.readings.now - target.window)
    (check.run views s.rl).1.allowed = decide (keep < target.limit) ∧
      ∃ i entry, placeOf target (check.run views s.rl).2 = some i ∧
        (check.run views s.rl).2.entries[i]? = some entry ∧
        EntryTracks target
          (if keep < target.limit then s.allowed ++ [check.readings.now] else s.allowed) entry := by
  intro keep
  have hparams := hadm.parameters hon
  obtain ⟨hkey, hscope⟩ := check.key_eq hon
  have hfind : s.rl.entries.findIdx? (·.isFor check.key check.scope) = placeOf target s.rl := by
    rw [hkey, hscope]
    rfl
  cases hplace : placeOf target s.rl with
  | none =>
      have hring : SlidingWindow.ringOf views target s.rl = ⟨fun _ => 0, 0, 0⟩ := by
        rw [SlidingWindow.ringOf, hplace]
        rfl
      have hnew := EntryTracks.new hparams
      have hcheck := hnew.check views check.readings.now
      have hstate : views.sliding (newEntry check.key check.scope check.algo check.limit
          check.windowSeconds check.readings).state = ⟨fun _ => 0, 0, 0⟩ := by
        rw [hparams.1]
        exact views.sliding_sliding _
      rw [hstate, ← hring] at hcheck
      have hfor : (newEntry check.key check.scope check.algo check.limit check.windowSeconds
          check.readings).isFor target.key target.scope = true := by
        rw [isFor_newEntry, hkey, hscope]
        exact ⟨strncpy_of_le (Nat.le_sub_one_of_lt target.key_short), rfl⟩
      rw [run_new views (hfind.trans hplace) (hadm.room hon hplace), h.absent hplace]
      rw [← rateCheck_isFor views check.algo _ check.readings.now] at hfor
      rw [hparams.1] at hcheck hfor ⊢
      refine ⟨hcheck.1, s.rl.entries.length, _, ?_, List.getElem?_concat_length, hcheck.2⟩
      rw [placeOf] at hplace ⊢
      rw [List.findIdx?_append, hplace, List.findIdx?_singleton, if_pos hfor, Option.map_some,
        Option.none_or, Nat.zero_add]
  | some i =>
      obtain ⟨entry, hget, htracks⟩ := h.present i hplace
      have hring : SlidingWindow.ringOf views target s.rl = views.sliding entry.state := by
        rw [SlidingWindow.ringOf, hplace, Option.bind_some, hget]
      have hcheck := htracks.check views check.readings.now
      rw [← hring] at hcheck
      rw [run_found views (hfind.trans hplace) hget, hparams.1]
      refine ⟨hcheck.1, i, _, ?_, ?_, hcheck.2⟩
      · rw [← hplace]
        exact findIdx?_set hget (rateCheck_isFor views .slidingWindow entry _ _ _)
      · exact List.getElem?_set_self (List.getElem?_eq_some_iff.mp hget).1

theorem run_other (views : Views) {s : History} {check : Check} (hoff : check.isOn target = false)
    (hcut : NotCut target s check) :
    placeOf target (check.run views s.rl).2 = placeOf target s.rl ∧
      ∀ i, placeOf target s.rl = some i →
        (check.run views s.rl).2.entries[i]? = s.rl.entries[i]? := by
  cases hfind : s.rl.entries.findIdx? (·.isFor check.key check.scope) with
  | some j =>
      obtain ⟨entry, hget, hkey, hscope⟩ := isFor_of_findIdx? hfind
      rw [run_found views hfind hget]
      constructor
      · exact findIdx?_set hget (rateCheck_isFor views _ entry _ _ _)
      · intro i hplace
        obtain ⟨entry', hget', hkey', hscope'⟩ := isFor_of_findIdx? hplace
        apply List.getElem?_set_ne
        intro hij
        rw [hij, hget', Option.some.injEq] at hget
        rw [hget] at hkey' hscope'
        rw [Check.isOn, ← hkey, ← hscope, hkey', hscope'] at hoff
        simp at hoff
  | none =>
      rcases Nat.lt_or_ge s.rl.entries.length rateMaxBuckets with hroom | hfull
      · rw [run_new views hfind hroom]
        constructor
        · cases hplace : placeOf target s.rl with
          | some i =>
              rw [placeOf] at hplace ⊢
              rw [List.findIdx?_append, hplace, Option.some_or]
          | none =>
              have hnot := hcut hoff hplace
              rw [placeOf] at hplace ⊢
              rw [List.findIdx?_append, hplace, Option.none_or, List.findIdx?_singleton,
                rateCheck_isFor, if_neg, Option.map_none]
              rw [isFor_newEntry]
              exact fun hsame => hnot hsame.1 hsame.2
        · intro i hplace
          obtain ⟨entry, hget, -⟩ := isFor_of_findIdx? hplace
          exact List.getElem?_append_left (List.getElem?_eq_some_iff.mp hget).1
      · rw [run_full views hfind hfull]
        exact ⟨rfl, fun _ _ => rfl⟩

/-! ## A check -/

theorem step_allowed_other {s : History} {check : Check} (hoff : check.isOn target = false) :
    (step views target s check).allowed = s.allowed := by
  unfold step
  dsimp only
  rw [hoff, Bool.false_and, if_neg Bool.false_ne_true]

theorem Tracks.step_allowed {s : History} (h : Tracks target s) {check : Check}
    (hadm : Admissible target s check) (hon : check.isOn target = true) :
    (step views target s check).allowed =
      if keepCount (SlidingWindow.ringOf views target s.rl)
        (check.readings.now - target.window) < target.limit
      then s.allowed ++ [check.readings.now] else s.allowed := by
  unfold step
  dsimp only
  rw [hon, Bool.true_and, (h.run_target views hadm hon).1]
  exact if_congr decide_eq_true_iff rfl rfl

theorem Tracks.step_times {s : History} (h : Tracks target s) (views : Views) {check : Check}
    (hforward : s.clock ≤ check.readings.now) :
    (step views target s check).allowed.Pairwise (· ≤ ·) ∧
      ∀ time ∈ (step views target s check).allowed, 0 ≤ time ∧ time ≤ check.readings.now := by
  have hpast : ∀ time ∈ s.allowed, 0 ≤ time ∧ time ≤ check.readings.now :=
    fun time htime => ⟨(h.past time htime).1, (h.past time htime).2.trans hforward⟩
  unfold step
  dsimp only
  split
  · constructor
    · rw [List.pairwise_append]
      refine ⟨h.sorted, List.pairwise_singleton _ _, ?_⟩
      intro time htime now hnow
      rw [List.mem_singleton.mp hnow]
      exact (hpast time htime).2
    · intro time htime
      rcases List.mem_append.mp htime with hold | hnew
      · exact hpast time hold
      · rw [List.mem_singleton.mp hnew]
        exact ⟨h.nonneg.trans hforward, le_refl _⟩
  · exact ⟨h.sorted, hpast⟩

theorem Tracks.step {s : History} (h : Tracks target s) {check : Check}
    (hadm : Admissible target s check) (hcut : NotCut target s check) :
    Tracks target (step views target s check) := by
  obtain ⟨hsorted, hpast⟩ := h.step_times views hadm.forward
  refine ⟨h.nonneg.trans hadm.forward, hsorted, hpast, ?_, ?_⟩
  · intro hplace
    cases hon : check.isOn target with
    | false =>
        rw [step_allowed_other hon]
        exact h.absent ((run_other views hon hcut).1.symm.trans hplace)
    | true =>
        obtain ⟨-, i, entry, hsome, -⟩ := h.run_target views hadm hon
        rw [show (SlidingWindow.step views target s check).rl = (check.run views s.rl).2 from rfl,
          hsome] at hplace
        contradiction
  · intro i hplace
    cases hon : check.isOn target with
    | false =>
        obtain ⟨hsame, hget⟩ := run_other views hon hcut
        rw [step_allowed_other hon]
        have hi : placeOf target s.rl = some i := hsame.symm.trans hplace
        obtain ⟨entry, hentry, htracks⟩ := h.present i hi
        exact ⟨entry, (hget i hi).trans hentry, htracks⟩
    | true =>
        obtain ⟨-, j, entry, hsome, hget, htracks⟩ := h.run_target views hadm hon
        have hij : j = i := Option.some.inj (hsome.symm.trans hplace)
        rw [hij] at hget
        rw [h.step_allowed hadm hon]
        exact ⟨entry, hget, htracks⟩

def Within (target : Target) (history : List Int) : Prop :=
  ∀ t, allowedWithin history t target.window ≤ target.limit

theorem Within.append {history : List Int} (h : Within target history) {now : Int}
    (hroom : allowedSince history (now - target.window) < target.limit) :
    Within target (history ++ [now]) := by
  intro t
  rw [allowedWithin_append]
  split
  · next hin =>
      have hle : allowedWithin history t target.window ≤
          allowedSince history (now - target.window) := allowedWithin_le_since hin.2
      omega
  · exact h t

theorem Tracks.checkHolds {s : History} (h : Tracks target s) (hwithin : Within target s.allowed)
    {check : Check} (hadm : Admissible target s check) (hok : RingOk views target s check) :
    CheckHolds views target s check := by
  cases hon : check.isOn target with
  | false =>
      constructor
      · rw [step_allowed_other hon]
        exact hwithin
      · intro htrue
        rw [hon] at htrue
        contradiction
  | true =>
      have hiff := keep_lt_iff (h.ringOf views) h.sorted
        (fun time htime => (h.past time htime).1) target.limit_le (hok hon)
      constructor
      · rw [h.step_allowed hadm hon]
        split
        · next hkeep => exact hwithin.append (hiff.mp hkeep)
        · exact hwithin
      · intro _ hdenied
        rw [(h.run_target views hadm hon).1, decide_eq_false_iff_not, hiff] at hdenied
        exact Nat.le_of_not_lt hdenied

theorem Tracks.ringOk {s : History} (h : Tracks target s) (hwithin : Within target s.allowed)
    {check : Check} (hadm : Admissible target s check)
    (hholds : CheckHolds views target s check) : RingOk views target s check := by
  intro hon
  by_contra hnot
  have hpast : ∀ time ∈ s.allowed, time ≤ check.readings.now :=
    fun time htime => (h.past time htime).2.trans hadm.forward
  have hlast := hwithin (check.readings.now - target.window)
  rw [allowedWithin_eq_since hpast] at hlast
  obtain ⟨hkeep, hfull⟩ := keep_lt_of_not_ok (h.ringOf views) h.sorted
    target.limit_pos hlast hnot
  have hsound := hholds.sound (check.readings.now - target.window)
  rw [h.step_allowed hadm hon, if_pos hkeep, allowedWithin_append,
    allowedWithin_eq_since hpast, if_pos (by omega)] at hsound
  omega

/-! ## Runs -/

theorem tracks_start (defaultLimit windowSeconds : Nat) :
    Tracks target (start defaultLimit windowSeconds) where
  nonneg := le_refl _
  sorted := List.Pairwise.nil
  past _ htime := absurd htime List.not_mem_nil
  absent _ := rfl
  present i hplace := absurd hplace (by simp [placeOf, start, rateLimiterInit])

theorem within_nil : Within target [] := fun _ => Nat.zero_le _

/-- In a run with any checks of other keys, the limit is kept, and nothing is denied before it
is reached, exactly when every check of the key finds a ring that has gone round or is not in
need of it. -/
theorem checks_hold_iff {defaultLimit windowSeconds : Nat} {checks : List Check}
    (hadm : Always (step views target) (Admissible target) (start defaultLimit windowSeconds)
      checks)
    (hcut : Always (step views target) (NotCut target) (start defaultLimit windowSeconds)
      checks) :
    Always (step views target) (CheckHolds views target) (start defaultLimit windowSeconds)
        checks ↔
      Always (step views target) (RingOk views target) (start defaultLimit windowSeconds)
        checks := by
  have hboth := hadm.and _ hcut
  have hstart : Tracks target (start defaultLimit windowSeconds) ∧
      Within target (start defaultLimit windowSeconds).allowed := ⟨tracks_start _ _, within_nil⟩
  constructor
  · intro hholds
    refine always_of_invariant (I := fun s => Tracks target s ∧ Within target s.allowed) _ ?_ ?_
      hstart (hboth.and _ hholds)
    · intro s check hs hp
      exact ⟨hs.1.step hp.1.1 hp.1.2, hp.2.sound⟩
    · intro s check hs hp
      exact hs.1.ringOk hs.2 hp.1.1 hp.2
  · intro hok
    refine always_of_invariant (I := fun s => Tracks target s ∧ Within target s.allowed) _ ?_ ?_
      hstart (hboth.and _ hok)
    · intro s check hs hp
      exact ⟨hs.1.step hp.1.1 hp.1.2, (hs.1.checkHolds hs.2 hp.1.1 hp.2).sound⟩
    · intro s check hs hp
      exact hs.1.checkHolds hs.2 hp.1.1 hp.2

instance decidableAdmissible (s : History) (check : Check) :
    Decidable (Admissible target s check) :=
  decidable_of_iff (s.clock ≤ check.readings.now ∧ (check.isOn target = true →
      check.algo = .slidingWindow ∧ check.limit = target.limit ∧
        check.windowSeconds = target.window) ∧
      (check.isOn target = true → placeOf target s.rl = none →
        s.rl.entries.length < rateMaxBuckets))
    ⟨fun h => ⟨h.1, h.2.1, h.2.2⟩, fun h => ⟨h.forward, h.parameters, h.room⟩⟩

instance decidableNotCut (s : History) (check : Check) : Decidable (NotCut target s check) :=
  inferInstanceAs (Decidable (_ → _ → _ → _))

instance decidableRingOk (s : History) (check : Check) : Decidable (RingOk views target s check) :=
  inferInstanceAs (Decidable (_ → _ ∨ _ ∨ _))

/-- A member that was not written reads as zeros. -/
def zeroViews : Views where
  fixed state := match state with | .fixed e => e | _ => ⟨0, 0⟩
  sliding state := match state with | .sliding e => e | _ => ⟨fun _ => 0, 0, 0⟩
  bucket state := match state with | .bucket e => e | _ => ⟨0, 0, 0, 0⟩
  fixed_fixed _ := rfl
  sliding_sliding _ := rfl
  bucket_bucket _ := rfl

/-- Two requests of a user in 60 seconds. -/
def loginTarget : Target := ⟨lit "login:7", .user, 2, 60, by decide, by decide, by decide⟩

def loginCheck (now : Int) : Check :=
  ⟨lit "login:7", .user, .slidingWindow, 2, 60, ⟨now, now, now⟩⟩

def pageCheck (now : Int) : Check := ⟨lit "page", .ip, .fixedWindow, 5, 10, ⟨now, now, now⟩⟩

/-- The third request is denied as the clock has not left the first window yet. -/
theorem checks_hold_early :
    Always (step zeroViews loginTarget) (CheckHolds zeroViews loginTarget) (start 10 60)
      [loginCheck 3, pageCheck 4, loginCheck 5, loginCheck 9, loginCheck 70] :=
  (checks_hold_iff (by decide) (by decide)).mpr (by decide)

/-- Three requests within 12 seconds are allowed to a key with a limit of two in 60 seconds. -/
theorem third_login_allowed :
    Always (step zeroViews loginTarget) (Admissible loginTarget) (start 10 60)
        [loginCheck 1000, loginCheck 1005, loginCheck 1012] ∧
      ¬ Always (step zeroViews loginTarget) (CheckHolds zeroViews loginTarget) (start 10 60)
        [loginCheck 1000, loginCheck 1005, loginCheck 1012] := by
  refine ⟨by decide, ?_⟩
  intro h
  have hsound := h.2.2.1.sound 1000
  exact absurd hsound (by decide)

end MiniBackend.Auth.Proofs.SlidingWindow
