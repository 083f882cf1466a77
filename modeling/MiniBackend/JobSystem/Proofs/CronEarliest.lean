import MiniBackend.JobSystem.CronScheduler
import MiniBackend.Lib.ForwardSearch
import Mathlib.Data.Int.LeastGreatest
import Mathlib.Tactic.IntervalCases

/-!
# Which fire time is found

`cron_next_fire_time` walks from one listed second to the next and looks at no more than
`525600 * 5` of them.  The walk goes through the seconds list from left to right and
takes only values larger than the ones before, so a value that is listed after a larger
one is never looked at.  This module says which times are looked at, in terms of the
expression alone, and from that when the earliest matching time is the one returned.
-/

namespace MiniBackend.JobSystem.Proofs.CronEarliest

open MiniBackend.Lib.CString MiniBackend.Lib.Calendar MiniBackend.Lib.ForwardSearch
open MiniBackend.JobSystem.Cron

/-! ## Values within the field ranges -/

def itemNumbers (token : CStr) (minVal maxVal : Int) : List Int :=
  match strchr token slash, strchr token dash with
  | some _, _ => [(stepBounds token minVal maxVal).1, (stepBounds token minVal maxVal).2]
  | none, some rest => [atoi (token.takeWhile (· ≠ dash)), atoi rest.tail]
  | none, none => if token = star then [] else [atoi token]

/-- Every number in the field texts of `spec` lies within the range of its field. -/
def NumbersInRange (spec : CStr) : Prop :=
  ∀ texts ∈ fieldTexts spec, ∀ f ∈ cronFields,
    ∀ token ∈ pieces (· == comma) (strncpy (texts f) 255),
      ∀ n ∈ itemNumbers token (cronMinVals f) (cronMaxVals f),
        cronMinVals f ≤ n ∧ n ≤ cronMaxVals f

instance (spec : CStr) : Decidable (NumbersInRange spec) :=
  inferInstanceAs (Decidable (∀ texts ∈ fieldTexts spec, _))

def Within (minVal maxVal : Int) (field : CronFieldDef) : Prop :=
  ∀ v ∈ field.values, minVal ≤ v ∧ v ≤ maxVal

theorem within_any (minVal maxVal : Int) : Within minVal maxVal ⟨.any, []⟩ :=
  fun _ hv => absurd hv List.not_mem_nil

theorem mem_rangeValues {lo hi step v : Int} {room : Nat} (hstep : 0 < step)
    (hv : v ∈ rangeValues lo hi step room) : lo ≤ v ∧ v ≤ hi := by
  induction room generalizing lo with
  | zero => simp [rangeValues] at hv
  | succ room ih =>
      unfold rangeValues at hv
      split at hv
      · rcases List.mem_cons.mp hv with rfl | hv
        · omega
        · have := ih hv
          omega
      · exact absurd hv List.not_mem_nil

theorem stepOf_pos (text : CStr) : 0 < stepOf text := by
  unfold stepOf
  split
  all_goals omega

theorem within_append_range {minVal maxVal lo hi step : Int} {values : List Int} {room : Nat}
    {type type' : CronEntryType} (h : Within minVal maxVal ⟨type, values⟩) (hstep : 0 < step)
    (hlo : minVal ≤ lo) (hhi : hi ≤ maxVal) :
    Within minVal maxVal ⟨type', values ++ rangeValues lo hi step room⟩ := by
  intro v hv
  rcases List.mem_append.mp hv with hv | hv
  · exact h v hv
  · have := mem_rangeValues hstep hv
    omega

theorem within_parseItem {minVal maxVal : Int} {field : CronFieldDef} {token : CStr}
    (h : Within minVal maxVal field)
    (hnum : ∀ n ∈ itemNumbers token minVal maxVal, minVal ≤ n ∧ n ≤ maxVal) :
    Within minVal maxVal (parseItem field token minVal maxVal) := by
  unfold itemNumbers at hnum
  unfold parseItem
  cases hslash : strchr token slash with
  | some rest =>
      simp only [hslash, List.mem_cons, List.not_mem_nil, or_false, forall_eq_or_imp,
        forall_eq] at hnum ⊢
      exact within_append_range h (stepOf_pos _) hnum.1.1 hnum.2.2
  | none =>
      cases hdash : strchr token dash with
      | some rest =>
          simp only [hslash, hdash, List.mem_cons, List.not_mem_nil, or_false,
            forall_eq_or_imp, forall_eq] at hnum ⊢
          exact within_append_range h Int.one_pos hnum.1.1 hnum.2.2
      | none =>
          simp only [hslash, hdash] at hnum ⊢
          split
          · exact within_any _ _
          · next hstar =>
              have hval := hnum (atoi token) (by simp [hstar])
              split
              · intro v hv
                rcases List.mem_append.mp hv with hv | hv
                · exact h v hv
                · rw [List.mem_singleton.mp hv]
                  exact hval
              · intro v hv
                rw [List.mem_singleton.mp hv]
                exact hval

theorem within_parseItems {minVal maxVal : Int} {tokens : List CStr} {field : CronFieldDef}
    (h : Within minVal maxVal field)
    (hnum : ∀ token ∈ tokens, ∀ n ∈ itemNumbers token minVal maxVal, minVal ≤ n ∧ n ≤ maxVal) :
    Within minVal maxVal (parseItems minVal maxVal tokens field) := by
  induction tokens generalizing field with
  | nil => exact h
  | cons token tokens ih =>
      unfold parseItems
      split
      · exact ih (within_parseItem h (hnum token (by simp)))
          (fun t ht => hnum t (List.mem_cons_of_mem _ ht))
      · exact h

theorem within_cronParseExpression {spec : CStr} {expr : CronExpression}
    (hparse : cronParseExpression spec = some expr) (hnum : NumbersInRange spec)
    {f : CronField} (hf : f ∈ cronFields) :
    Within (cronMinVals f) (cronMaxVals f) (expr.fields f) := by
  obtain ⟨texts, htexts, rfl⟩ := Option.map_eq_some_iff.mp hparse
  show Within _ _ (cronParseField (texts f) (cronMinVals f) (cronMaxVals f))
  unfold cronParseField
  split
  · exact within_any _ _
  · exact within_parseItems (within_any _ _) (hnum texts htexts f hf)

/-! ## One step of the walk -/

/-- The seconds of the field in the order they are listed; a wildcard lists all. -/
def secondsListed (field : CronFieldDef) : List Int :=
  if field.type = .any then (List.range 60).map Int.ofNat else field.values

def nextCandidate (seconds : List Int) (t : Int) : Int :=
  match seconds.find? (t % 60 < ·) with
  | some v => t - t % 60 + v
  | none => t - t % 60 + 60 + seconds.headD 0

theorem mem_secondsListed_bounds {field : CronFieldDef} (h : Within 0 59 field) {v : Int}
    (hv : v ∈ secondsListed field) : 0 ≤ v ∧ v ≤ 59 := by
  unfold secondsListed at hv
  split at hv
  · obtain ⟨n, hn, rfl⟩ := List.mem_map.mp hv
    have hlt := List.mem_range.mp hn
    exact ⟨Int.natCast_nonneg n, by change (n : Int) ≤ 59; omega⟩
  · exact h v hv

theorem find?_allSeconds {s : Int} (h0 : 0 ≤ s) (h59 : s ≤ 59) :
    ((List.range 60).map Int.ofNat).find? (s < ·) = if s = 59 then none else some (s + 1) := by
  interval_cases s
  all_goals rfl

theorem headD_bounds {l : List Int} (h : ∀ v ∈ l, 0 ≤ v ∧ v ≤ 59) :
    0 ≤ l.headD 0 ∧ l.headD 0 ≤ 59 := by
  cases l with
  | nil => simp
  | cons v l => exact h v (by simp)

theorem nextSecond_bounds {field : CronFieldDef} (h : Within 0 59 field) {tm : Tm}
    (hsec : tm.sec ≤ 59) :
    (nextSecond field tm).sec ≤ 60 ∧ (nextSecond field tm).min ≤ tm.min + 1 ∧
      ((nextSecond field tm).sec = 60 → (nextSecond field tm).min = tm.min) := by
  unfold nextSecond
  split
  · have hfirst : cronFieldFirst field 0 ≤ 59 := by
      unfold cronFieldFirst
      split
      · decide
      · exact (headD_bounds h).2
    exact ⟨by dsimp only; omega, Int.le_refl _, fun heq => by dsimp only at heq; omega⟩
  · refine ⟨?_, by dsimp only; omega, fun _ => rfl⟩
    dsimp only [cronFieldNext]
    split
    · omega
    · cases hfind : field.values.find? (tm.sec < ·) with
      | none => simp
      | some v =>
          have := h v (List.mem_of_find?_eq_some hfind)
          simp only [Option.getD_some]
          omega

theorem mktime_nextSecond {field : CronFieldDef} (h : Within 0 59 field) (t : Int) :
    mktime (nextSecond field (localtime t)) = nextCandidate (secondsListed field) t := by
  have hsec : (localtime t).sec = t % 60 := rfl
  unfold nextSecond nextCandidate secondsListed cronFieldNext cronFieldFirst
  by_cases hany : field.type = .any
  · simp only [hany, if_true, hsec]
    rw [if_neg (by omega), mktime_set_sec, mktime_localtime, hsec,
      find?_allSeconds (by omega) (by omega)]
    by_cases h59 : t % 60 = 59
    · rw [if_pos h59]
      show _ = t - t % 60 + 60 + 0
      omega
    · rw [if_neg h59]
  · simp only [hany, if_false, hsec]
    cases hfind : field.values.find? (t % 60 < ·) with
    | none =>
        simp only [Option.getD_none]
        rw [if_pos (by decide), mktime_set_sec_succ_min, mktime_localtime, hsec]
    | some v =>
        have hv := h v (List.mem_of_find?_eq_some hfind)
        simp only [Option.getD_some]
        rw [if_neg (by omega), mktime_set_sec, mktime_localtime, hsec]

theorem nextSecond_frame (field : CronFieldDef) (tm : Tm) :
    (nextSecond field tm).hour = tm.hour ∧ (nextSecond field tm).mday = tm.mday ∧
      (nextSecond field tm).mon = tm.mon := by
  unfold nextSecond
  split
  all_goals exact ⟨rfl, rfl, rfl⟩

/-! ## The carries by hand -/

theorem carrySec_frame (tm : Tm) :
    (carrySec tm).hour = tm.hour ∧ (carrySec tm).mday = tm.mday ∧
      (carrySec tm).mon = tm.mon := by
  unfold carrySec
  split
  all_goals exact ⟨rfl, rfl, rfl⟩

theorem carryMin_frame (tm : Tm) :
    (carryMin tm).mday = tm.mday ∧ (carryMin tm).mon = tm.mon ∧
      (carryMin tm).hour ≤ tm.hour + 1 := by
  unfold carryMin
  split
  · exact ⟨rfl, rfl, Int.le_refl _⟩
  · exact ⟨rfl, rfl, by omega⟩

theorem carryHour_frame (tm : Tm) :
    (carryHour tm).mon = tm.mon ∧ (carryHour tm).mday ≤ tm.mday + 1 := by
  unfold carryHour
  split
  · exact ⟨rfl, Int.le_refl _⟩
  · exact ⟨rfl, by omega⟩

theorem carryMday_mon_le (tm : Tm) : (carryMday tm).mon ≤ tm.mon + 1 := by
  unfold carryMday
  split
  · exact Int.le_refl _
  · omega

theorem mktime_carrySec {tm : Tm} (h : tm.sec ≤ 60) : mktime (carrySec tm) = mktime tm := by
  unfold carrySec
  split
  · have hsec : tm.sec = 60 := by omega
    rw [mktime_carry_sec, ← hsec]
  · rfl

theorem mktime_carryMin {tm : Tm} (h : tm.min ≤ 60) : mktime (carryMin tm) = mktime tm := by
  unfold carryMin
  split
  · have hmin : tm.min = 60 := by omega
    rw [mktime_carry_min, ← hmin]
  · rfl

theorem mktime_carryHour {tm : Tm} (h : tm.hour ≤ 24) : mktime (carryHour tm) = mktime tm := by
  unfold carryHour
  split
  · have hhour : tm.hour = 24 := by omega
    rw [mktime_carry_hour, ← hhour]
  · rfl

theorem mktime_carryMday {tm : Tm} (h : tm.mday ≤ 32)
    (hmon : tm.mday = 32 → tm.mon ∈ [0, 2, 4, 6, 7, 9, 11]) :
    mktime (carryMday tm) = mktime tm := by
  unfold carryMday
  split
  · have hmday : tm.mday = 32 := by omega
    rw [mktime_carry_mday (hmon hmday), ← hmday]
  · rfl

theorem mktime_carryMon {tm : Tm} (h : tm.mon ≤ 12) : mktime (carryMon tm) = mktime tm := by
  unfold carryMon
  split
  · have hmon : tm.mon = 12 := by omega
    rw [mktime_carry_mon, ← hmon]
  · rfl

/-- Minutes reach 60 at most once, by the seconds field or by its carry. -/
theorem carrySec_nextSecond_min_le {field : CronFieldDef} (h : Within 0 59 field) {tm : Tm}
    (hsec : tm.sec ≤ 59) : (carrySec (nextSecond field tm)).min ≤ tm.min + 1 := by
  obtain ⟨hle, hmin, hsixty⟩ := nextSecond_bounds h hsec
  unfold carrySec
  split
  · have := hsixty (by omega)
    dsimp only
    omega
  · exact hmin

theorem mktime_advance {expr : CronExpression} (h : Within 0 59 (expr.fields .second)) (t : Int) :
    mktime (advance expr (localtime t)) =
      nextCandidate (secondsListed (expr.fields .second)) t := by
  have hsec : (localtime t).sec ≤ 59 := by
    change t % 60 ≤ 59
    omega
  have hmin : (localtime t).min ≤ 59 := by
    change t / 60 % 60 ≤ 59
    omega
  have hhour : (localtime t).hour ≤ 23 := by
    change t / 3600 % 24 ≤ 23
    omega
  have hmday := localtime_mday_bounds t
  have hmon := localtime_mon_bounds t
  unfold advance
  generalize htm : nextSecond (expr.fields .second) (localtime t) = tm
  have hvalue : mktime tm = nextCandidate (secondsListed (expr.fields .second)) t := by
    rw [← htm, mktime_nextSecond h]
  have hsec₁ : tm.sec ≤ 60 := by
    rw [← htm]
    exact (nextSecond_bounds h hsec).1
  have hmin₁ : (carrySec tm).min ≤ 60 := by
    have := carrySec_nextSecond_min_le h hsec
    rw [htm] at this
    omega
  obtain ⟨hhour₁, hmday₁, hmon₁⟩ := nextSecond_frame (expr.fields .second) (localtime t)
  rw [htm] at hhour₁ hmday₁ hmon₁
  obtain ⟨hhour₂, hmday₂, hmon₂⟩ := carrySec_frame tm
  obtain ⟨hmday₃, hmon₃, hhour₃⟩ := carryMin_frame (carrySec tm)
  obtain ⟨hmon₄, hmday₄⟩ := carryHour_frame (carryMin (carrySec tm))
  have hmon₅ := carryMday_mon_le (carryHour (carryMin (carrySec tm)))
  rw [mktime_carryMon (by omega), mktime_carryMday (by omega), mktime_carryHour (by omega),
    mktime_carryMin hmin₁, mktime_carrySec hsec₁, hvalue]
  -- day 32 comes from a day 31
  intro h32
  rw [hmon₄, hmon₃, hmon₂, hmon₁]
  exact localtime_mon_of_mday (by omega)

/-! ## The times that are looked at -/

def recordsAbove (s : Int) : List Int → List Int
  | [] => []
  | v :: l => if s < v then v :: recordsAbove v l else recordsAbove s l

theorem recordsAbove_of_find?_some {s v : Int} {l : List Int}
    (h : l.find? (s < ·) = some v) : recordsAbove s l = v :: recordsAbove v l := by
  induction l with
  | nil => simp at h
  | cons a l ih =>
      by_cases ha : s < a
      · rw [List.find?_cons_of_pos (by simpa using ha), Option.some.injEq] at h
        subst h
        simp [recordsAbove, ha]
      · rw [List.find?_cons_of_neg (by simpa using ha)] at h
        have hsv : s < v := by simpa using List.find?_some h
        have hav : ¬(v < a) := by omega
        simp only [recordsAbove, ha, hav, if_false]
        exact ih h

theorem recordsAbove_of_find?_none {s : Int} {l : List Int} (h : l.find? (s < ·) = none) :
    recordsAbove s l = [] := by
  induction l with
  | nil => rfl
  | cons a l ih =>
      rw [List.find?_eq_none] at h
      have ha : ¬(s < a) := by simpa using h a (by simp)
      rw [recordsAbove, if_neg ha]
      refine ih (List.find?_eq_none.mpr fun x hx => h x (List.mem_cons_of_mem _ hx))

theorem mem_of_mem_recordsAbove {s v : Int} {l : List Int} (h : v ∈ recordsAbove s l) :
    v ∈ l ∧ s < v := by
  induction l generalizing s with
  | nil => exact absurd h List.not_mem_nil
  | cons a l ih =>
      unfold recordsAbove at h
      split at h
      · rcases List.mem_cons.mp h with rfl | h
        · exact ⟨List.mem_cons_self, by assumption⟩
        · have := ih h
          exact ⟨List.mem_cons_of_mem _ this.1, by omega⟩
      · have := ih h
        exact ⟨List.mem_cons_of_mem _ this.1, this.2⟩

def Scanned (seconds : List Int) (start u : Int) : Prop :=
  (u / 60 = start / 60 ∧ (u = start ∨ u % 60 ∈ recordsAbove (start % 60) seconds)) ∨
    (start / 60 < u / 60 ∧ u % 60 ∈ recordsAbove (-1) seconds)

instance (seconds : List Int) (start : Int) : DecidablePred (Scanned seconds start) :=
  fun u => inferInstanceAs (Decidable ((u / 60 = start / 60 ∧ _) ∨ _))

section

variable {seconds : List Int}

theorem lt_nextCandidate (h : ∀ v ∈ seconds, 0 ≤ v ∧ v ≤ 59) (t : Int) :
    t < nextCandidate seconds t := by
  have hhead := headD_bounds h
  unfold nextCandidate
  split
  · next v hv =>
      have hlt : t % 60 < v := by simpa using List.find?_some hv
      omega
  · omega

theorem le_of_scanned {start u : Int} (h : Scanned seconds start u) : start ≤ u := by
  rcases h with ⟨hmin, rfl | hmem⟩ | ⟨hmin, -⟩
  · exact Int.le_refl _
  · have := (mem_of_mem_recordsAbove hmem).2
    omega
  · omega

theorem scanned_iff_of_some (h : ∀ v ∈ seconds, 0 ≤ v ∧ v ≤ 59) {c v : Int}
    (hfind : seconds.find? (c % 60 < ·) = some v) (u : Int) :
    Scanned seconds c u ↔ u = c ∨ Scanned seconds (c - c % 60 + v) u := by
  have hv := h v (List.mem_of_find?_eq_some hfind)
  have hrec := recordsAbove_of_find?_some hfind
  have hmin : (c - c % 60 + v) / 60 = c / 60 := by omega
  have hsec : (c - c % 60 + v) % 60 = v := by omega
  have hu : u = c - c % 60 + v ↔ u / 60 = c / 60 ∧ u % 60 = v := by omega
  simp only [Scanned, hmin, hsec, hrec, List.mem_cons, hu]
  constructor
  · rintro (⟨hm, rfl | heq | hmem⟩ | hlater)
    · exact .inl rfl
    · exact .inr (.inl ⟨hm, .inl ⟨hm, heq⟩⟩)
    · exact .inr (.inl ⟨hm, .inr hmem⟩)
    · exact .inr (.inr hlater)
  · rintro (rfl | ⟨hm, ⟨-, heq⟩ | hmem⟩ | hlater)
    · exact .inl ⟨rfl, .inl rfl⟩
    · exact .inl ⟨hm, .inr (.inl heq)⟩
    · exact .inl ⟨hm, .inr (.inr hmem)⟩
    · exact .inr hlater

theorem scanned_iff_of_none {l : List Int} {v c : Int} (hv : 0 ≤ v ∧ v ≤ 59)
    (hfind : (v :: l).find? (c % 60 < ·) = none) (u : Int) :
    Scanned (v :: l) c u ↔ u = c ∨ Scanned (v :: l) (c - c % 60 + 60 + v) u := by
  have hnow := recordsAbove_of_find?_none hfind
  have hlater : recordsAbove (-1) (v :: l) = v :: recordsAbove v (v :: l) :=
    recordsAbove_of_find?_some (List.find?_cons_of_pos (by simp; omega))
  have hmin : (c - c % 60 + 60 + v) / 60 = c / 60 + 1 := by omega
  have hsec : (c - c % 60 + 60 + v) % 60 = v := by omega
  have hu : u = c - c % 60 + 60 + v ↔ u / 60 = c / 60 + 1 ∧ u % 60 = v := by omega
  simp only [Scanned, hmin, hsec, hnow, hlater, List.mem_cons, hu, List.not_mem_nil, or_false]
  constructor
  · rintro (⟨-, rfl⟩ | ⟨hm, hmem⟩)
    · exact .inl rfl
    · rcases eq_or_lt_of_le (Int.add_one_le_of_lt hm) with heq | hlt
      · exact .inr (.inl ⟨heq.symm, hmem.imp_left (⟨heq.symm, ·⟩)⟩)
      · exact .inr (.inr ⟨hlt, hmem⟩)
  · rintro (rfl | ⟨hm, ⟨-, heq⟩ | hmem⟩ | ⟨hm, hmem⟩)
    · exact .inl ⟨rfl, rfl⟩
    · exact .inr ⟨by omega, .inl heq⟩
    · exact .inr ⟨by omega, .inr hmem⟩
    · exact .inr ⟨by omega, hmem⟩

theorem scanned_iff (hne : seconds ≠ []) (h : ∀ v ∈ seconds, 0 ≤ v ∧ v ≤ 59) (c u : Int) :
    Scanned seconds c u ↔ u = c ∨ Scanned seconds (nextCandidate seconds c) u := by
  unfold nextCandidate
  cases hfind : seconds.find? (c % 60 < ·) with
  | some v => exact scanned_iff_of_some h hfind u
  | none =>
      obtain ⟨v, l, rfl⟩ := List.exists_cons_of_ne_nil hne
      exact scanned_iff_of_none (h v List.mem_cons_self) hfind u

theorem scanned_trail (hne : seconds ≠ []) (h : ∀ v ∈ seconds, 0 ≤ v ∧ v ≤ 59) :
    Trail (nextCandidate seconds) (Scanned seconds) :=
  ⟨lt_nextCandidate h, scanned_iff hne h, fun _ _ => le_of_scanned⟩

end

/-! ## The search -/

def matchesAt (expr : CronExpression) (t : Int) : Bool := cronMatches expr (localtime t)

theorem searchLoop_eq_search {expr : CronExpression} (h : Within 0 59 (expr.fields .second))
    (iter : Nat) (t : Int) :
    searchLoop expr iter (localtime t) = search (matchesAt expr)
      (nextCandidate (secondsListed (expr.fields .second))) (-1) iter t := by
  induction iter generalizing t with
  | zero => rfl
  | succ iter ih =>
      unfold searchLoop search
      rw [mktime_localtime, mktime_advance h, ih]
      rfl

theorem secondsListed_ne_nil {expr : CronExpression} {t : Int} (h : matchesAt expr t = true) :
    secondsListed (expr.fields .second) ≠ [] := by
  have hall := List.all_eq_true.mp h .second (by decide)
  unfold secondsListed
  split
  · decide
  · next hany =>
      intro hempty
      simp [cronFieldMatches, hany, hempty] at hall

/-! ## The earliest match -/

def fourYears : Int := 1461 * secondsPerDay

/-- The matching times of the four years after `fromTime`. -/
def dueTimes (expr : CronExpression) (fromTime : Int) : Set Int :=
  {t | fromTime < t ∧ t ≤ fromTime + fourYears ∧ cronMatches expr (localtime t) = true}

/-- Whenever there is a matching time, the earliest one is returned. -/
def ReturnsEarliest (expr : CronExpression) (fromTime : Int) : Prop :=
  ∀ t, IsLeast (dueTimes expr fromTime) t → cronNextFireTime expr fromTime = t

def scannedBefore (seconds : List Int) (start t : Int) : Nat :=
  visitsBefore (Scanned seconds) start t

/-- The walk from `start` looks at `t` before it gives up, and does not end at time -1
on the way.  Since a search that fails answers -1, time -1 is also the answer when the
walk ends there or finds nothing else. -/
def Reached (expr : CronExpression) (seconds : List Int) (start t : Int) : Prop :=
  (Scanned seconds start t ∧ scannedBefore seconds start t < maxIterations ∧
      ¬(start < -1 ∧ -1 < t ∧ Scanned seconds start (-1))) ∨
    (t = -1 ∧ (Scanned seconds start (-1) ∨ ∀ u, Scanned seconds start u →
      scannedBefore seconds start u < maxIterations → cronMatches expr (localtime u) = false))

section

variable {expr : CronExpression} {fromTime t : Int}

theorem matchesAt_of_lt_least (hleast : IsLeast (dueTimes expr fromTime) t) {u : Int}
    (hfrom : fromTime + 1 ≤ u) (hlt : u < t) : matchesAt expr u = false := by
  by_contra hmatch
  rw [Bool.not_eq_false] at hmatch
  have hbound := hleast.1.2.1
  have hle := hleast.2 ⟨by omega, by omega, hmatch⟩
  omega

/-- At a time other than -1 the search is decided by what it looks at. -/
theorem search_eq_least_iff {seconds : List Int}
    (htrail : Trail (nextCandidate seconds) (Scanned seconds))
    (hleast : IsLeast (dueTimes expr fromTime) t) (ht : t ≠ -1) :
    search (matchesAt expr) (nextCandidate seconds) (-1) maxIterations (fromTime + 1) = t ↔
      Reached expr seconds (fromTime + 1) t := by
  rw [htrail.search_eq_iff ht]
  constructor
  · intro hfound
    refine .inl ⟨hfound.visits, hfound.before_lt, ?_⟩
    rintro ⟨hstart, hlt, hscan⟩
    exact hfound.not_stopped (-1) hscan hstart (by omega) rfl
  · rintro (⟨hscan, hbefore, hpass⟩ | ⟨heq, -⟩)
    · refine ⟨hscan, hbefore, hleast.1.2.2, fun u hu => ?_, fun u hu hstart hle => ?_⟩
      · exact matchesAt_of_lt_least hleast (le_of_scanned hu)
      · rintro rfl
        exact hpass ⟨hstart, by omega, hu⟩
    · exact absurd heq ht

/-- A walk that does not come to time -1 finds the first match it looks at. -/
theorem search_ne_neg_one {seconds : List Int}
    (htrail : Trail (nextCandidate seconds) (Scanned seconds)) {start u : Int}
    (hscan : ¬Scanned seconds start (-1)) (hu : Scanned seconds start u)
    (hbefore : scannedBefore seconds start u < maxIterations)
    (hmatch : matchesAt expr u = true) :
    search (matchesAt expr) (nextCandidate seconds) (-1) maxIterations start ≠ -1 := by
  obtain ⟨w, ⟨hw, hwmatch⟩, hfirst⟩ := Int.exists_least_of_bdd
    (P := fun w => Scanned seconds start w ∧ matchesAt expr w = true)
    ⟨start, fun w hw => le_of_scanned hw.1⟩ ⟨u, hu, hmatch⟩
  have hwu : w ≤ u := hfirst u ⟨hu, hmatch⟩
  have hne : ∀ v, Scanned seconds start v → v ≠ -1 := by
    rintro v hv rfl
    exact hscan hv
  have hfound : FoundAt (matchesAt expr) (Scanned seconds) (-1) maxIterations start w := by
    refine ⟨hw, (visitsBefore_mono hwu).trans_lt hbefore, hwmatch, fun v hv hlt => ?_,
      fun v hv _ _ => hne v hv⟩
    by_contra hmatch'
    have := hfirst v ⟨hv, by simpa using hmatch'⟩
    omega
  rw [(htrail.search_eq_iff (hne w hw)).mpr hfound]
  exact hne w hw

/-- When time -1 is the earliest match it is also returned by a search that fails. -/
theorem search_eq_neg_one_iff {seconds : List Int}
    (htrail : Trail (nextCandidate seconds) (Scanned seconds))
    (hleast : IsLeast (dueTimes expr fromTime) (-1)) :
    search (matchesAt expr) (nextCandidate seconds) (-1) maxIterations (fromTime + 1) = -1 ↔
      Reached expr seconds (fromTime + 1) (-1) := by
  constructor
  · intro hsearch
    refine .inr ⟨rfl, or_iff_not_imp_left.mpr fun hscan u hu hbefore => ?_⟩
    by_contra hmatch
    rw [Bool.not_eq_false] at hmatch
    exact search_ne_neg_one htrail hscan hu hbefore hmatch hsearch
  · intro hreached
    by_contra hne
    have hfound := (htrail.search_eq_iff hne).mp rfl
    generalize search (matchesAt expr) (nextCandidate seconds) (-1) maxIterations
      (fromTime + 1) = r at hne hfound
    have hscanned : ¬Scanned seconds (fromTime + 1) (-1) := by
      intro hscan
      have hr : ¬(r < -1) := by
        intro hlt
        have hfalse := matchesAt_of_lt_least hleast (le_of_scanned hfound.visits) hlt
        rw [hfound.holds] at hfalse
        exact absurd hfalse (by decide)
      have hfalse := hfound.first (-1) hscan (by omega)
      rw [matchesAt, hleast.1.2.2] at hfalse
      exact absurd hfalse (by decide)
    rcases hreached with ⟨hscan, -⟩ | ⟨-, hscan | hnone⟩
    · exact hscanned hscan
    · exact hscanned hscan
    · have hfalse := hnone r hfound.visits hfound.before_lt
      rw [← matchesAt, hfound.holds] at hfalse
      exact absurd hfalse (by decide)

end

/-- The earliest match is returned exactly when it is one of the times that the walk
reaches. -/
theorem returnsEarliest_iff {spec : CStr} {expr : CronExpression}
    (hparse : cronParseExpression spec = some expr) (hnum : NumbersInRange spec)
    (fromTime : Int) :
    ReturnsEarliest expr fromTime ↔ ∀ t, IsLeast (dueTimes expr fromTime) t →
      Reached expr (secondsListed (expr.fields .second)) (fromTime + 1) t := by
  have hwithin : Within 0 59 (expr.fields .second) :=
    within_cronParseExpression hparse hnum (f := .second) (by decide)
  refine forall_congr' fun t => forall_congr' fun hleast => ?_
  have htrail := scanned_trail (secondsListed_ne_nil hleast.1.2.2)
    (fun v => mem_secondsListed_bounds hwithin)
  rw [cronNextFireTime, searchLoop_eq_search hwithin]
  by_cases ht : t = -1
  · subst ht
    exact search_eq_neg_one_iff htrail hleast
  · exact search_eq_least_iff htrail hleast ht

/-- An expression that only restricts the seconds. -/
def secondsExpression (values : List Int) : CronExpression where
  fields
    | .second => ⟨.specific, values⟩
    | _ => ⟨.any, []⟩

theorem matches_secondsExpression (values : List Int) (t : Int) :
    cronMatches (secondsExpression values) (localtime t) = true ↔ t % 60 ∈ values := by
  have hsec : (localtime t).sec = t % 60 := rfl
  simp [cronMatches, cronFields, secondsExpression, cronFieldMatches, fieldValue, hsec]

theorem cronParseExpression_of_fields {spec : CStr} {expr : CronExpression}
    (h : (cronParseExpression spec).map (fun e => cronFields.map e.fields) =
      some (cronFields.map expr.fields)) : cronParseExpression spec = some expr := by
  obtain ⟨e, he, hfields⟩ := Option.map_eq_some_iff.mp h
  have hext : e.fields = expr.fields := by
    funext f
    apply List.map_inj_left.mp hfields
    cases f
    all_goals decide
  rw [he]
  exact congrArg some (congrArg CronExpression.mk hext)

theorem isLeast_due_ten {values : List Int} (hten : 10 ∈ values)
    (hmin : ∀ v ∈ values, 10 ≤ v) : IsLeast (dueTimes (secondsExpression values) 0) 10 := by
  refine ⟨⟨by decide, by decide, (matches_secondsExpression values 10).mpr hten⟩, ?_⟩
  rintro t ⟨hpos, -, hmatch⟩
  have := hmin _ ((matches_secondsExpression values t).mp hmatch)
  omega

theorem returnsEarliest_iff_ascending :
    cronParseExpression (lit "10,30 * * * * *") = some (secondsExpression [10, 30]) ∧
      NumbersInRange (lit "10,30 * * * * *") ∧
      (dueTimes (secondsExpression [10, 30]) 0).Nonempty ∧
      ReturnsEarliest (secondsExpression [10, 30]) 0 := by
  have hparse : cronParseExpression (lit "10,30 * * * * *") =
      some (secondsExpression [10, 30]) := cronParseExpression_of_fields (by decide +kernel)
  have hnum : NumbersInRange (lit "10,30 * * * * *") := by decide
  have hleast : IsLeast (dueTimes (secondsExpression [10, 30]) 0) 10 :=
    isLeast_due_ten (by decide) (by decide)
  refine ⟨hparse, hnum, ⟨10, hleast.1⟩, (returnsEarliest_iff hparse hnum 0).mpr fun t ht => ?_⟩
  rw [ht.unique hleast]
  exact .inl (by decide)

/-- The second 10 is listed after 30 and is skipped. -/
theorem descending_seconds_skipped :
    cronParseExpression (lit "30,10 * * * * *") = some (secondsExpression [30, 10]) ∧
      NumbersInRange (lit "30,10 * * * * *") ∧
      IsLeast (dueTimes (secondsExpression [30, 10]) 0) 10 ∧
      cronNextFireTime (secondsExpression [30, 10]) 0 = 30 ∧
      ¬ReturnsEarliest (secondsExpression [30, 10]) 0 := by
  have hparse : cronParseExpression (lit "30,10 * * * * *") =
      some (secondsExpression [30, 10]) := cronParseExpression_of_fields (by decide +kernel)
  have hleast : IsLeast (dueTimes (secondsExpression [30, 10]) 0) 10 :=
    isLeast_due_ten (by decide) (by decide)
  have hnext : cronNextFireTime (secondsExpression [30, 10]) 0 = 30 := by decide
  refine ⟨hparse, by decide, hleast, hnext, fun hearliest => ?_⟩
  have heq := hearliest 10 hleast
  rw [hnext] at heq
  exact absurd heq (by decide)

end MiniBackend.JobSystem.Proofs.CronEarliest
