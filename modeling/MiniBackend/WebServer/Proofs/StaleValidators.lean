import MiniBackend.WebServer.StaticServe

/-!
# Dates compared as texts

`static_check_not_modified` compares the texts of two dates.  They begin with the name of the
weekday, so the order of the texts is an order of the fields that has little to do with time.
It is worked out here field by field.
-/

namespace MiniBackend.WebServer.Proofs.StaleValidators

open MiniBackend.Lib.CString
open MiniBackend.Lib.Calendar
open MiniBackend.WebServer.Http
open MiniBackend.WebServer.StaticServe

/-! ## Texts of one length, and texts that end at a byte -/

theorem strcmp_append_lt {s t : CStr} (h : s.length = t.length) (s' t' : CStr) :
    strcmp (s ++ s') (t ++ t') < 0 ↔ strcmp s t < 0 ∨ s = t ∧ strcmp s' t' < 0 := by
  rw [strcmp_append h]
  by_cases heq : s = t
  · rw [if_pos heq, heq, strcmp_self]
    simp
  · rw [if_neg heq]
    simp [heq]

theorem strcmp_append_self (s s' t' : CStr) : strcmp (s ++ s') (s ++ t') = strcmp s' t' := by
  rw [strcmp_append rfl, if_pos rfl]

/-- A byte that is smaller than all bytes of the two texts acts as their terminator. -/
theorem strcmp_append_cons_lt {c : UInt8} {s t : CStr} (hs : ∀ b ∈ s, c < b)
    (ht : ∀ b ∈ t, c < b) (s' t' : CStr) :
    strcmp (s ++ c :: s') (t ++ c :: t') < 0 ↔
      strcmp s t < 0 ∨ s = t ∧ strcmp s' t' < 0 := by
  induction s generalizing t with
  | nil =>
      cases t with
      | nil => simp [strcmp]
      | cons b t =>
          have hb : c < b := ht b List.mem_cons_self
          have hnat : c.toNat < b.toNat := UInt8.lt_iff_toNat_lt.mp hb
          have hne : c ≠ b := fun heq => by rw [heq] at hnat; omega
          rw [List.nil_append, List.cons_append, strcmp.eq_def, strcmp.eq_def]
          simp only [hne, if_false, List.nil_eq, reduceCtorEq, false_and, or_false]
          omega
  | cons a s ih =>
      have ha : c < a := hs a List.mem_cons_self
      have hnat : c.toNat < a.toNat := UInt8.lt_iff_toNat_lt.mp ha
      cases t with
      | nil =>
          have hne : a ≠ c := fun heq => by rw [heq] at hnat; omega
          rw [List.nil_append, List.cons_append, strcmp.eq_def, strcmp.eq_def]
          simp only [hne, if_false, reduceCtorEq, false_and, or_false]
          omega
      | cons b t =>
          rw [List.cons_append, List.cons_append, strcmp, strcmp]
          by_cases hab : a = b
          · rw [if_pos hab, if_pos hab, hab, ih (fun x hx => hs x (List.mem_cons_of_mem a hx))
              (fun x hx => ht x (List.mem_cons_of_mem b hx))]
            simp only [List.cons.injEq, true_and]
          · rw [if_neg hab, if_neg hab]
            simp [hab]

/-! ## The fields -/

theorem twoDigits_lt {a b : Int} (ha : 0 ≤ a ∧ a < 100) (hb : 0 ≤ b ∧ b < 100) :
    strcmp (twoDigits a) (twoDigits b) < 0 ↔ a < b := by
  have hdigit : ∀ n : Nat, n < 100 → (UInt8.ofNat (48 + n)).toNat = 48 + n := by
    intro n hn
    rw [UInt8.toNat_ofNat']
    omega
  have hinj : ∀ n m : Nat, n < 100 → m < 100 →
      (UInt8.ofNat (48 + n) = UInt8.ofNat (48 + m) ↔ n = m) := by
    intro n m hn hm
    rw [← UInt8.toNat_inj, hdigit n hn, hdigit m hm]
    omega
  have htens : a.toNat / 10 < 100 ∧ b.toNat / 10 < 100 := by omega
  have hunits : a.toNat % 10 < 100 ∧ b.toNat % 10 < 100 := by omega
  simp only [twoDigits, strcmp, hinj _ _ htens.1 htens.2, hinj _ _ hunits.1 hunits.2,
    hdigit _ htens.1, hdigit _ htens.2, hdigit _ hunits.1, hdigit _ hunits.2]
  split_ifs
  all_goals omega

theorem twoDigits_inj {a b : Int} (ha : 0 ≤ a ∧ a < 100) (hb : 0 ≤ b ∧ b < 100) :
    twoDigits a = twoDigits b ↔ a = b := by
  constructor
  · intro h
    have hab := twoDigits_lt ha hb
    have hba := twoDigits_lt hb ha
    rw [h, strcmp_self] at hab hba
    omega
  · intro h
    rw [h]

theorem twoDigits_append_lt {a b : Int} (ha : 0 ≤ a ∧ a < 100) (hb : 0 ≤ b ∧ b < 100)
    (s t : CStr) :
    strcmp (twoDigits a ++ s) (twoDigits b ++ t) < 0 ↔ a < b ∨ a = b ∧ strcmp s t < 0 := by
  have hlength : (twoDigits a).length = (twoDigits b).length := rfl
  rw [strcmp_append_lt hlength, twoDigits_lt ha hb, twoDigits_inj ha hb]

theorem length_weekdayName (t : Int) : (weekdayName (gmtime t)).length = 3 := by
  have hwday : (gmtime t).wday.toNat < 7 := by
    dsimp only [gmtime, localtime]
    omega
  unfold weekdayName
  generalize (gmtime t).wday.toNat = n at hwday
  interval_cases n
  all_goals rfl

theorem length_monthName (t : Int) : (monthName (gmtime t)).length = 3 := by
  have hmon : (gmtime t).mon.toNat < 12 := by
    have hbounds := localtime_mon_bounds t
    dsimp only [gmtime]
    omega
  unfold monthName
  generalize (gmtime t).mon.toNat = n at hmon
  interval_cases n
  all_goals rfl

theorem monthName_inj {t t' : Int} (h : monthName (gmtime t) = monthName (gmtime t')) :
    (gmtime t).mon = (gmtime t').mon := by
  have hmon := localtime_mon_bounds t
  have hmon' := localtime_mon_bounds t'
  have hnames : ∀ i < 12, ∀ j < 12, monthNames.getD i [] = monthNames.getD j [] → i = j := by
    decide
  have hindex := hnames _ (by change (localtime t).mon.toNat < 12; omega) _
    (by change (localtime t').mon.toNat < 12; omega) h
  change (localtime t).mon.toNat = (localtime t').mon.toNat at hindex
  change (localtime t).mon = (localtime t').mon
  omega

theorem lt_of_mem_yearText {tm : Tm} {b : UInt8} (hb : b ∈ yearText tm) : 32 < b := by
  rcases isDigit_of_mem_decimalInt hb with hminus | hdigit
  · rw [hminus]
    decide
  · simp only [isDigit, Bool.and_eq_true, decide_eq_true_eq] at hdigit
    exact UInt8.lt_of_lt_of_le (by decide) hdigit.1

theorem yearText_inj {tm tm' : Tm} : yearText tm = yearText tm' ↔ tm.year = tm'.year := by
  constructor
  · intro h
    have hyear := decimalInt_injective h
    omega
  · intro h
    rw [yearText, yearText, h]

/-! ## The order of the texts -/

def dateTextBefore (tm tm' : Tm) : Prop :=
  strcmp (weekdayName tm) (weekdayName tm') < 0 ∨ weekdayName tm = weekdayName tm' ∧
    (tm.mday < tm'.mday ∨ tm.mday = tm'.mday ∧
      (strcmp (monthName tm) (monthName tm') < 0 ∨ monthName tm = monthName tm' ∧
        strcmp (yearText tm) (yearText tm') < 0))

def clockBefore (tm tm' : Tm) : Prop :=
  tm.hour < tm'.hour ∨ tm.hour = tm'.hour ∧
    (tm.min < tm'.min ∨ tm.min = tm'.min ∧ tm.sec < tm'.sec)

def sameDate (tm tm' : Tm) : Prop :=
  weekdayName tm = weekdayName tm' ∧ tm.mday = tm'.mday ∧ monthName tm = monthName tm' ∧
    tm.year = tm'.year

def clockText (tm : Tm) : CStr :=
  twoDigits tm.hour ++ (lit ":" ++ (twoDigits tm.min ++ (lit ":" ++ (twoDigits tm.sec ++
    lit " GMT"))))

theorem httpDate_eq (tm : Tm) :
    httpDate tm = weekdayName tm ++ (lit ", " ++ (twoDigits tm.mday ++ (lit " " ++
      (monthName tm ++ (lit " " ++ (yearText tm ++ 32 :: clockText tm)))))) := by
  have hblank : lit " " = [32] := by decide
  simp only [httpDate, clockText, hblank, List.append_assoc, List.cons_append, List.nil_append]

theorem clockText_lt (t t' : Int) :
    strcmp (clockText (gmtime t)) (clockText (gmtime t')) < 0 ↔
      clockBefore (gmtime t) (gmtime t') := by
  have hbounds : ∀ t, (0 ≤ (gmtime t).hour ∧ (gmtime t).hour < 100) ∧
      (0 ≤ (gmtime t).min ∧ (gmtime t).min < 100) ∧
      (0 ≤ (gmtime t).sec ∧ (gmtime t).sec < 100) := by
    intro t
    dsimp only [gmtime, localtime]
    omega
  obtain ⟨hhour, hmin, hsec⟩ := hbounds t
  obtain ⟨hhour', hmin', hsec'⟩ := hbounds t'
  unfold clockText clockBefore
  rw [twoDigits_append_lt hhour hhour', strcmp_append_self, twoDigits_append_lt hmin hmin',
    strcmp_append_self, twoDigits_append_lt hsec hsec', strcmp_self]
  simp only [Int.lt_irrefl, and_false, or_false]

theorem httpDate_lt (t t' : Int) :
    strcmp (httpDate (gmtime t)) (httpDate (gmtime t')) < 0 ↔
      dateTextBefore (gmtime t) (gmtime t') ∨
        sameDate (gmtime t) (gmtime t') ∧ clockBefore (gmtime t) (gmtime t') := by
  have hmday : ∀ t, 0 ≤ (gmtime t).mday ∧ (gmtime t).mday < 100 := by
    intro t
    have hbounds := localtime_mday_bounds t
    dsimp only [gmtime]
    omega
  have hweekday : (weekdayName (gmtime t)).length = (weekdayName (gmtime t')).length := by
    rw [length_weekdayName, length_weekdayName]
  have hmonth : (monthName (gmtime t)).length = (monthName (gmtime t')).length := by
    rw [length_monthName, length_monthName]
  rw [httpDate_eq, httpDate_eq, strcmp_append_lt hweekday, strcmp_append_self,
    twoDigits_append_lt (hmday t) (hmday t'), strcmp_append_self, strcmp_append_lt hmonth,
    strcmp_append_self,
    strcmp_append_cons_lt (fun b => lt_of_mem_yearText) (fun b => lt_of_mem_yearText),
    clockText_lt, yearText_inj]
  simp only [dateTextBefore, sameDate, and_or_left, or_assoc, and_assoc]

/-! ## A date and a time of day -/

theorem clockBefore_of_lt {t t' : Int} (hdate : sameDate (gmtime t) (gmtime t')) (h : t < t') :
    clockBefore (gmtime t) (gmtime t') := by
  obtain ⟨-, hmday, hmonth, hyear⟩ := hdate
  have hmon := monthName_inj hmonth
  have hday : dayNumber ((gmtime t).year + 1900) (gmtime t).mon (gmtime t).mday =
      dayNumber ((gmtime t').year + 1900) (gmtime t').mon (gmtime t').mday := by
    rw [hyear, hmon, hmday]
  have hsame : t / secondsPerDay = t' / secondsPerDay := by
    rw [← dayNumber_localtime t, ← dayNumber_localtime t']
    exact hday
  dsimp only [clockBefore, gmtime, localtime, secondsPerDay] at hsame ⊢
  omega

/-- The fields of `tm` stand in front of those of `tm'` in the order of their texts, or both
are of one day. -/
def fieldsBefore (tm tm' : Tm) : Prop :=
  strcmp (weekdayName tm) (weekdayName tm') < 0 ∨ weekdayName tm = weekdayName tm' ∧
    (tm.mday < tm'.mday ∨ tm.mday = tm'.mday ∧
      (strcmp (monthName tm) (monthName tm') < 0 ∨ monthName tm = monthName tm' ∧
        (strcmp (yearText tm) (yearText tm') < 0 ∨ tm.year = tm'.year)))

theorem fieldsBefore_iff (tm tm' : Tm) :
    fieldsBefore tm tm' ↔ dateTextBefore tm tm' ∨ sameDate tm tm' := by
  simp only [fieldsBefore, dateTextBefore, sameDate, and_or_left, or_assoc]

theorem httpDate_lt_of_lt {t t' : Int} (h : t < t') :
    strcmp (httpDate (gmtime t)) (httpDate (gmtime t')) < 0 ↔
      fieldsBefore (gmtime t) (gmtime t') := by
  rw [httpDate_lt, fieldsBefore_iff]
  constructor
  · rintro (hdate | ⟨hdate, -⟩)
    · exact .inl hdate
    · exact .inr hdate
  · rintro (hdate | hdate)
    · exact .inl hdate
    · exact .inr ⟨hdate, clockBefore_of_lt hdate h⟩

/-! ## Conditional requests -/

theorem staticCheckNotModified_eq (req : HttpRequest) (info : FileCacheInfo) {ims : CStr}
    (hims : httpRequestGetHeader req (lit "If-Modified-Since") = some ims)
    (hinm : ∀ inm ∈ httpRequestGetHeader req (lit "If-None-Match"), strcmp inm info.etag ≠ 0) :
    staticCheckNotModified req info = true ↔ ¬strcmp ims info.lastModified < 0 := by
  have hmatch : (httpRequestGetHeader req (lit "If-None-Match")).any
      (fun inm => strcmp inm info.etag = 0) = false := by
    rw [Option.any_eq_false]
    intro inm hget
    simpa using hinm inm hget
  rw [staticCheckNotModified, hmatch, hims]
  simp

/-- Without a matching `If-None-Match`, a request with the date of `t` is answered by 304 only
if the file is no newer than `t`: exactly if that is so, or the fields of `t` stand in front
of those of the modification time. -/
theorem not_modified_only_if_fresh_iff (req : HttpRequest) (st : FileStat) (t : Int)
    (hims : httpRequestGetHeader req (lit "If-Modified-Since") = some (httpDate (gmtime t)))
    (hinm : ∀ inm ∈ httpRequestGetHeader req (lit "If-None-Match"),
      strcmp inm (fileCacheInfo st).etag ≠ 0) :
    (staticCheckNotModified req (fileCacheInfo st) = true → st.mtime ≤ t) ↔
      st.mtime ≤ t ∨ fieldsBefore (gmtime t) (gmtime st.mtime) := by
  rw [staticCheckNotModified_eq req (fileCacheInfo st) hims hinm]
  by_cases hfresh : st.mtime ≤ t
  · simp [hfresh]
  · have hlt : t < st.mtime := by omega
    change (¬strcmp (httpDate (gmtime t)) (httpDate (gmtime st.mtime)) < 0 → _) ↔ _
    rw [httpDate_lt_of_lt hlt]
    simp [hfresh]

/-- A request whose only header is the date of `t`. -/
def sinceRequest (t : Int) : HttpRequest :=
  { httpRequestInit with
    method := .get
    path := lit "/"
    headers := [⟨lit "If-Modified-Since", httpDate (gmtime t)⟩] }

/-- A file that was changed on the second of January 1970. -/
def secondOfJanuary : FileStat := ⟨false, 1, 86400⟩

theorem not_modified_only_if_fresh_iff_thursday :
    (staticCheckNotModified (sinceRequest 0) (fileCacheInfo secondOfJanuary) = true →
      secondOfJanuary.mtime ≤ 0) ↔
      secondOfJanuary.mtime ≤ 0 ∨ fieldsBefore (gmtime 0) (gmtime secondOfJanuary.mtime) :=
  not_modified_only_if_fresh_iff (sinceRequest 0) secondOfJanuary 0 (by decide)
    (by decide)

/-- The first of January 1970 was a Thursday, and the second a Friday. -/
theorem thursday_after_friday :
    httpRequestGetHeader (sinceRequest 0) (lit "If-Modified-Since") =
        some (httpDate (gmtime 0)) ∧
      httpRequestGetHeader (sinceRequest 0) (lit "If-None-Match") = none ∧
      staticCheckNotModified (sinceRequest 0) (fileCacheInfo secondOfJanuary) = true ∧
      ¬secondOfJanuary.mtime ≤ 0 := by
  decide

end MiniBackend.WebServer.Proofs.StaleValidators
