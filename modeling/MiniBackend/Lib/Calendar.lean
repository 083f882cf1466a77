import Mathlib.Tactic.SplitIfs

/-!
# Broken-down time

`struct tm` and the conversions of `time.h` in the proleptic Gregorian calendar at
UTC.  Years are counted from March, so that the leap day is the last day of a year and
the months before it have a uniform pattern of lengths.  Nothing here mentions a
particular program.
-/

namespace MiniBackend.Lib.Calendar

/-- `mon` counts from 0 and `year` from 1900, as in C. -/
structure Tm where
  sec : Int
  min : Int
  hour : Int
  mday : Int
  mon : Int
  year : Int
  wday : Int
deriving DecidableEq

def secondsPerDay : Int := 86400

def daysBeforeYear (year : Int) : Int := 365 * year + year / 4 - year / 100 + year / 400

def daysBeforeMonth (month : Int) : Int := (153 * month + 2) / 5

/-- Days from 1 January 1970 to a date with a month between 0 and 11.  The day of the
month may have any value. -/
def dayNumber (year mon mday : Int) : Int :=
  if mon < 2 then daysBeforeYear (year - 1) + daysBeforeMonth (mon + 10) + mday - 719469
  else daysBeforeYear year + daysBeforeMonth (mon - 2) + mday - 719469

def mktime (tm : Tm) : Int :=
  secondsPerDay * dayNumber (tm.year + 1900 + tm.mon / 12) (tm.mon % 12) tm.mday +
    3600 * tm.hour + 60 * tm.min + tm.sec

/-! ## From a day number to a date -/

/-- A March-based year and the number of days since its first of March.  400 years have
146097 days; the last of four centuries and the last of four years may be a day longer
than the others. -/
def yearAndDay (days : Int) : Int × Int :=
  let era := days / 146097
  let inEra := days % 146097
  let century := min (inEra / 36524) 3
  let inCentury := inEra - 36524 * century
  let four := inCentury / 1461
  let inFour := inCentury % 1461
  let single := min (inFour / 365) 3
  (400 * era + 100 * century + 4 * four + single, inFour - 365 * single)

def monthOfDay (day : Int) : Int := (5 * day + 2) / 153

def localtime (t : Int) : Tm :=
  let days := t / secondsPerDay
  let (year, day) := yearAndDay (days + 719468)
  let month := monthOfDay day
  { sec := t % 60
    min := t / 60 % 60
    hour := t / 3600 % 24
    mday := day - daysBeforeMonth month + 1
    mon := if month < 10 then month + 2 else month - 10
    year := (if month < 10 then year else year + 1) - 1900
    wday := (days + 4) % 7 }

/-- The position of a day in its era, century, group of four years and year. -/
theorem exists_yearAndDay (days : Int) : ∃ era century four single day : Int,
    (0 ≤ century ∧ century ≤ 3) ∧ (0 ≤ four ∧ four ≤ 24) ∧ (0 ≤ single ∧ single ≤ 3) ∧
      (0 ≤ day ∧ day ≤ 365) ∧
      days = 146097 * era + 36524 * century + 1461 * four + 365 * single + day ∧
      yearAndDay days = (400 * era + 100 * century + 4 * four + single, day) := by
  have hera : 0 ≤ days % 146097 ∧ days % 146097 < 146097 := by omega
  have hdays : days = 146097 * (days / 146097) + days % 146097 := by omega
  generalize hc : min (days % 146097 / 36524) 3 = century
  have hcentury : 0 ≤ century ∧ century ≤ 3 := by omega
  have hin : 0 ≤ days % 146097 - 36524 * century ∧
      days % 146097 - 36524 * century ≤ 36524 := by omega
  generalize hr : days % 146097 - 36524 * century = inCentury at hin
  have hfour : 0 ≤ inCentury / 1461 ∧ inCentury / 1461 ≤ 24 := by omega
  generalize hs : min (inCentury % 1461 / 365) 3 = single
  have hsingle : 0 ≤ single ∧ single ≤ 3 := by omega
  have hday : 0 ≤ inCentury % 1461 - 365 * single ∧
      inCentury % 1461 - 365 * single ≤ 365 := by omega
  refine ⟨days / 146097, century, inCentury / 1461, single, _, hcentury, hfour, hsingle, hday,
    by omega, ?_⟩
  simp only [yearAndDay, hc, hr, hs]

theorem daysBeforeYear_yearAndDay (days : Int) :
    daysBeforeYear (yearAndDay days).1 + (yearAndDay days).2 = days := by
  obtain ⟨era, century, four, single, day, hc, hf, hs, -, hdays, heq⟩ := exists_yearAndDay days
  rw [heq, hdays]
  dsimp only [daysBeforeYear]
  have h4 : (400 * era + 100 * century + 4 * four + single) / 4 =
      100 * era + 25 * century + four := by omega
  have h100 : (400 * era + 100 * century + 4 * four + single) / 100 = 4 * era + century := by
    omega
  have h400 : (400 * era + 100 * century + 4 * four + single) / 400 = era := by omega
  rw [h4, h100, h400]
  omega

theorem yearAndDay_snd_bounds (days : Int) :
    0 ≤ (yearAndDay days).2 ∧ (yearAndDay days).2 ≤ 365 := by
  obtain ⟨era, century, four, single, day, -, -, -, hday, -, heq⟩ := exists_yearAndDay days
  rw [heq]
  exact hday

/-! ## The fields of a broken-down time -/

theorem localtime_mday_bounds (t : Int) :
    1 ≤ (localtime t).mday ∧ (localtime t).mday ≤ 31 := by
  have hday := yearAndDay_snd_bounds (t / secondsPerDay + 719468)
  dsimp only [localtime, monthOfDay, daysBeforeMonth]
  omega

theorem localtime_mon_bounds (t : Int) : 0 ≤ (localtime t).mon ∧ (localtime t).mon ≤ 11 := by
  have hday := yearAndDay_snd_bounds (t / secondsPerDay + 719468)
  dsimp only [localtime, monthOfDay]
  split_ifs
  all_goals omega

theorem dayNumber_localtime (t : Int) :
    dayNumber ((localtime t).year + 1900) (localtime t).mon (localtime t).mday =
      t / secondsPerDay := by
  have hyear := daysBeforeYear_yearAndDay (t / secondsPerDay + 719468)
  have hday := yearAndDay_snd_bounds (t / secondsPerDay + 719468)
  dsimp only [localtime, dayNumber]
  generalize yearAndDay (t / secondsPerDay + 719468) = split at hyear hday ⊢
  obtain ⟨year, day⟩ := split
  dsimp only at hyear hday ⊢
  have hmonth : 0 ≤ monthOfDay day ∧ monthOfDay day ≤ 11 := by
    dsimp only [monthOfDay]
    omega
  generalize monthOfDay day = month at hmonth ⊢
  by_cases hmarch : month < 10
  · have hge : ¬(month + 2 < 2) := by omega
    simp only [hmarch, hge, if_true, if_false, Int.sub_add_cancel, Int.add_sub_cancel]
    omega
  · have hlt : month - 10 < 2 := by omega
    simp only [hmarch, hlt, if_true, if_false, Int.sub_add_cancel, Int.add_sub_cancel]
    omega

theorem mktime_localtime (t : Int) : mktime (localtime t) = t := by
  have hmon := localtime_mon_bounds t
  have hdiv : (localtime t).mon / 12 = 0 := by omega
  have hmod : (localtime t).mon % 12 = (localtime t).mon := by omega
  rw [mktime, hdiv, hmod, Int.add_zero, dayNumber_localtime]
  dsimp only [localtime, secondsPerDay]
  omega

/-! ## Carrying into the next field -/

theorem mktime_set_sec (tm : Tm) (s : Int) :
    mktime { tm with sec := s } = mktime tm - tm.sec + s := by
  dsimp only [mktime]
  omega

theorem mktime_set_sec_succ_min (tm : Tm) (s : Int) :
    mktime { tm with sec := s, min := tm.min + 1 } = mktime tm - tm.sec + 60 + s := by
  dsimp only [mktime]
  omega

theorem mktime_carry_sec (tm : Tm) :
    mktime { tm with sec := 0, min := tm.min + 1 } = mktime { tm with sec := 60 } := by
  dsimp only [mktime]
  omega

theorem mktime_carry_min (tm : Tm) :
    mktime { tm with min := 0, hour := tm.hour + 1 } = mktime { tm with min := 60 } := by
  dsimp only [mktime]
  omega

theorem mktime_carry_hour (tm : Tm) :
    mktime { tm with hour := 0, mday := tm.mday + 1 } = mktime { tm with hour := 24 } := by
  dsimp only [mktime, dayNumber, secondsPerDay]
  split_ifs
  all_goals omega

theorem mktime_carry_mon (tm : Tm) :
    mktime { tm with mon := 0, year := tm.year + 1 } = mktime { tm with mon := 12 } := by
  have hyear : tm.year + 1 + 1900 = tm.year + 1900 + 1 := by omega
  dsimp only [mktime]
  rw [hyear, Int.zero_ediv, Int.add_zero]
  rfl

theorem localtime_mon_of_mday {t : Int} (h31 : (localtime t).mday = 31) :
    (localtime t).mon ∈ [0, 2, 4, 6, 7, 9, 11] := by
  have hday := yearAndDay_snd_bounds (t / secondsPerDay + 719468)
  simp only [List.mem_cons, List.not_mem_nil, or_false]
  dsimp only [localtime, monthOfDay, daysBeforeMonth] at h31 ⊢
  split_ifs
  all_goals omega

/-- The day after day 31 is the first of the next month. -/
theorem mktime_carry_mday {tm : Tm} (hmon : tm.mon ∈ [0, 2, 4, 6, 7, 9, 11]) :
    mktime { tm with mday := 1, mon := tm.mon + 1 } = mktime { tm with mday := 32 } := by
  simp only [List.mem_cons, List.not_mem_nil, or_false] at hmon
  obtain ⟨sec, min, hour, mday, mon, year, wday⟩ := tm
  dsimp only [mktime] at hmon ⊢
  have hnext : dayNumber (year + 1900 + (mon + 1) / 12) ((mon + 1) % 12) 1 =
      dayNumber (year + 1900 + mon / 12) (mon % 12) 32 := by
    rcases hmon with rfl | rfl | rfl | rfl | rfl | rfl | rfl
    all_goals simp [dayNumber, daysBeforeMonth]
    all_goals omega
  rw [hnext]

end MiniBackend.Lib.Calendar
