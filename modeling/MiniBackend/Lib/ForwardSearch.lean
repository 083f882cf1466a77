import Mathlib.Data.Nat.Count
import Mathlib.Order.Basic

/-!
# Searching forward along a walk

A bounded search for the first position with a property, along a walk that moves to the
right with every step.  The positions of the walk are given by a relation of their own,
so that what the search finds can be said without running it.  Nothing here mentions a
particular program.
-/

namespace MiniBackend.Lib.ForwardSearch

/-- Look at no more than the given number of positions.  `stop` is the answer of a failed
search; a search also fails when it arrives at `stop`. -/
def search (p : Int → Bool) (next : Int → Int) (stop : Int) : Nat → Int → Int
  | 0, _ => stop
  | fuel + 1, c =>
      if p c then c
      else if next c = stop then stop
      else search p next stop fuel (next c)

/-- `Visits c u` describes the positions `u` of the walk that starts at `c`. -/
structure Trail (next : Int → Int) (Visits : Int → Int → Prop) : Prop where
  lt_next : ∀ c, c < next c
  visits_iff : ∀ c u, Visits c u ↔ u = c ∨ Visits (next c) u
  le_of_visits : ∀ c u, Visits c u → c ≤ u

section

variable {next : Int → Int} {Visits : Int → Int → Prop}

theorem Trail.visits_self (h : Trail next Visits) (c : Int) : Visits c c :=
  (h.visits_iff c c).mpr (.inl rfl)

theorem Trail.visits_next (h : Trail next Visits) (c : Int) : Visits c (next c) :=
  (h.visits_iff c (next c)).mpr (.inr (h.visits_self (next c)))

variable [∀ c, DecidablePred (Visits c)]

def visitsBefore (Visits : Int → Int → Prop) [∀ c, DecidablePred (Visits c)] (c t : Int) : Nat :=
  Nat.count (fun i => Visits c (c + i)) (t - c).toNat

theorem visitsBefore_self (c : Int) : visitsBefore Visits c c = 0 := by
  rw [visitsBefore, Int.sub_self]
  rfl

theorem visitsBefore_mono {c t u : Int} (h : t ≤ u) :
    visitsBefore Visits c t ≤ visitsBefore Visits c u :=
  Nat.count_monotone _ (by omega)

theorem Trail.visitsBefore_next (h : Trail next Visits) {c t : Int} (ht : next c ≤ t) :
    visitsBefore Visits c t = visitsBefore Visits (next c) t + 1 := by
  have hlt := h.lt_next c
  obtain ⟨gap, hgap⟩ : ∃ gap : Nat, next c = c + 1 + gap :=
    ⟨(next c - c - 1).toNat, by omega⟩
  have hsplit : (t - c).toNat = 1 + gap + (t - next c).toNat := by omega
  have hstart : Nat.count (fun i => Visits c (c + i)) 1 = 1 := by
    simp [Nat.count_succ, h.visits_self c]
  -- nothing is visited between `c` and `next c`
  have hbetween : Nat.count (fun i => Visits c (c + (1 + i : Nat))) gap = 0 := by
    refine Nat.count_of_forall_not fun i hi hvis => ?_
    rcases (h.visits_iff c _).mp hvis with heq | hvis
    · omega
    · have hle := h.le_of_visits _ _ hvis
      omega
  have hrest : (fun i : Nat => Visits c (c + (1 + gap + i : Nat))) =
      fun i : Nat => Visits (next c) (next c + i) := by
    funext i
    have hpos : c + (1 + gap + i : Nat) = next c + i := by omega
    rw [hpos, h.visits_iff c]
    exact propext (or_iff_right (by omega))
  rw [visitsBefore, hsplit, Nat.count_add, Nat.count_add, hstart, hbetween, visitsBefore]
  simp only [hrest]
  omega

structure FoundAt (p : Int → Bool) (Visits : Int → Int → Prop) [∀ c, DecidablePred (Visits c)]
    (stop : Int) (fuel : Nat) (c t : Int) : Prop where
  visits : Visits c t
  before_lt : visitsBefore Visits c t < fuel
  holds : p t = true
  first : ∀ u, Visits c u → u < t → p u = false
  not_stopped : ∀ u, Visits c u → c < u → u ≤ t → u ≠ stop

variable {p : Int → Bool} {stop : Int} {fuel : Nat} {c t : Int}

theorem Trail.foundAt_of_holds (h : Trail next Visits) (hc : p c = true) :
    FoundAt p Visits stop (fuel + 1) c t ↔ c = t := by
  constructor
  · intro hfound
    have hle := h.le_of_visits c t hfound.visits
    by_contra hne
    have hfalse := hfound.first c (h.visits_self c) (by omega)
    rw [hc] at hfalse
    exact absurd hfalse (by decide)
  · rintro rfl
    have hge := h.le_of_visits c
    refine ⟨h.visits_self c, ?_, hc, fun u hu hlt => ?_, fun u hu hlt hle => ?_⟩
    · rw [visitsBefore_self]
      omega
    · exact absurd (hge u hu) (by omega)
    · exact absurd hlt (by omega)

theorem Trail.visits_of_foundAt (h : Trail next Visits) (hc : p c = false)
    (hfound : FoundAt p Visits stop fuel c t) : Visits (next c) t := by
  refine ((h.visits_iff c t).mp hfound.visits).resolve_left ?_
  rintro rfl
  rw [hfound.holds] at hc
  exact absurd hc (by decide)

/-- A position without the property is passed. -/
theorem Trail.foundAt_next (h : Trail next Visits) (hc : p c = false) (hstop : next c ≠ stop) :
    FoundAt p Visits stop (fuel + 1) c t ↔ FoundAt p Visits stop fuel (next c) t := by
  have hlt := h.lt_next c
  constructor
  · intro hfound
    have ht := h.visits_of_foundAt hc hfound
    have hcount := h.visitsBefore_next (h.le_of_visits _ _ ht)
    have hfuel := hfound.before_lt
    refine ⟨ht, by omega, hfound.holds, fun u hu => ?_, fun u hu hgt => ?_⟩
    · exact hfound.first u ((h.visits_iff c u).mpr (.inr hu))
    · exact hfound.not_stopped u ((h.visits_iff c u).mpr (.inr hu)) (by omega)
  · intro hfound
    have hcount := h.visitsBefore_next (h.le_of_visits _ _ hfound.visits)
    have hfuel := hfound.before_lt
    refine ⟨(h.visits_iff c t).mpr (.inr hfound.visits), by omega, hfound.holds, ?_, ?_⟩
    · intro u hu hut
      rcases (h.visits_iff c u).mp hu with rfl | hu
      · exact hc
      · exact hfound.first u hu hut
    · intro u hu hcu hut
      rcases (h.visits_iff c u).mp hu with rfl | hu
      · exact absurd hcu (by omega)
      · rcases eq_or_lt_of_le (h.le_of_visits _ _ hu) with rfl | hgt
        · exact hstop
        · exact hfound.not_stopped u hu hgt hut

theorem Trail.search_eq_iff (h : Trail next Visits) (ht : t ≠ stop) :
    search p next stop fuel c = t ↔ FoundAt p Visits stop fuel c t := by
  induction fuel generalizing c with
  | zero =>
      refine ⟨fun heq => absurd heq.symm ht, fun hfound => ?_⟩
      exact absurd hfound.before_lt (Nat.not_lt_zero _)
  | succ fuel ih =>
      unfold search
      by_cases hc : p c = true
      · rw [if_pos hc, h.foundAt_of_holds hc]
      · rw [if_neg hc]
        rw [Bool.not_eq_true] at hc
        by_cases hstop : next c = stop
        · rw [if_pos hstop]
          refine ⟨fun heq => absurd heq.symm ht, fun hfound => ?_⟩
          -- the position found lies behind `stop`
          have hle := h.le_of_visits _ _ (h.visits_of_foundAt hc hfound)
          exact absurd hstop (hfound.not_stopped _ (h.visits_next c) (h.lt_next c) hle)
        · rw [if_neg hstop, ih, h.foundAt_next hc hstop]

end

/-! ## Walks in any direction -/

section

variable {p : Int → Bool} {next : Int → Int} {stop : Int} {fuel k : Nat} {c : Int}

structure FirstAt (p : Int → Bool) (next : Int → Int) (stop : Int) (fuel : Nat) (c : Int)
    (k : Nat) : Prop where
  lt_fuel : k < fuel
  holds : p (next^[k] c) = true
  before : ∀ j < k, p (next^[j] c) = false
  not_stopped : ∀ j, 0 < j → j < k → next^[j] c ≠ stop

theorem FirstAt.tail (h : FirstAt p next stop (fuel + 1) c (k + 1)) :
    FirstAt p next stop fuel (next c) k where
  lt_fuel := Nat.lt_of_succ_lt_succ h.lt_fuel
  holds := h.holds
  before := fun j hj => h.before (j + 1) (Nat.succ_lt_succ hj)
  not_stopped := fun j _ hj => h.not_stopped (j + 1) (Nat.succ_pos j) (Nat.succ_lt_succ hj)

theorem FirstAt.cons (h : FirstAt p next stop fuel (next c) k) (hc : p c = false)
    (hstop : next c ≠ stop) : FirstAt p next stop (fuel + 1) c (k + 1) where
  lt_fuel := Nat.succ_lt_succ h.lt_fuel
  holds := h.holds
  before := by
    intro j hj
    cases j with
    | zero => exact hc
    | succ j => exact h.before j (Nat.lt_of_succ_lt_succ hj)
  not_stopped := by
    intro j _ hj
    match j with
    | 1 => exact hstop
    | j + 2 => exact h.not_stopped (j + 1) (Nat.succ_pos j) (Nat.lt_of_succ_lt_succ hj)

theorem search_of_firstAt (h : FirstAt p next stop fuel c k) :
    search p next stop fuel c = next^[k] c := by
  induction fuel generalizing c k with
  | zero => exact absurd h.lt_fuel (Nat.not_lt_zero k)
  | succ fuel ih =>
      unfold search
      cases k with
      | zero => exact if_pos h.holds
      | succ k =>
          have hc : p c = false := h.before 0 (Nat.succ_pos k)
          rw [hc, if_neg (by decide), ih h.tail, Function.iterate_succ_apply]
          split
          next hstop =>
            -- only the position found may be `stop`
            cases k with
            | zero => exact hstop.symm
            | succ k =>
                exact absurd hstop (h.not_stopped 1 Nat.one_pos (Nat.succ_lt_succ (Nat.succ_pos k)))
          next => rfl

/-- A search that succeeds nowhere answers `stop`. -/
theorem exists_firstAt_or_search_eq_stop :
    (∃ k, FirstAt p next stop fuel c k) ∨ search p next stop fuel c = stop := by
  induction fuel generalizing c with
  | zero => exact Or.inr rfl
  | succ fuel ih =>
      unfold search
      by_cases hc : p c = true
      · exact Or.inl ⟨0, Nat.succ_pos fuel, hc, nofun, fun j _ hj => absurd hj (Nat.not_lt_zero j)⟩
      · rw [if_neg hc]
        rw [Bool.not_eq_true] at hc
        by_cases hstop : next c = stop
        · exact Or.inr (if_pos hstop)
        · rw [if_neg hstop]
          rcases @ih (next c) with ⟨k, hk⟩ | hnone
          · exact Or.inl ⟨k + 1, hk.cons hc hstop⟩
          · exact Or.inr hnone

end

end MiniBackend.Lib.ForwardSearch
