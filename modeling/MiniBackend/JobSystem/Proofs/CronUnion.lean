import MiniBackend.JobSystem.CronScheduler

/-!
# The items of a cron field

The items of a field fill one array of 64 values.  A star empties it, a number empties it unless a
number stands in front of it, and what follows a star replaces the star.  So the field means the
items behind which nothing of this happens.
-/

namespace MiniBackend.JobSystem.Proofs.CronUnion

open MiniBackend.Lib.CString MiniBackend.JobSystem.Cron

variable {minVal maxVal : Int}

def fieldText (items : List CStr) : CStr := [comma].intercalate items

def readItems (text : CStr) : List CStr := pieces (· == comma) (strncpy text 255)

def IsNumber (item : CStr) : Prop := item ≠ star ∧ slash ∉ item ∧ dash ∉ item

instance (item : CStr) : Decidable (IsNumber item) := inferInstanceAs (Decidable (_ ∧ _ ∧ _))

def Stays (a b : CStr) : Prop := a ≠ star ∧ b ≠ star ∧ (IsNumber b → IsNumber a)

instance (a b : CStr) : Decidable (Stays a b) := inferInstanceAs (Decidable (_ ∧ _ ∧ _))

def listed (minVal maxVal : Int) (item : CStr) : List Int :=
  (cronParseField item minVal maxVal).values

def keep (minVal maxVal : Int) (run : List CStr) (item : CStr) : List CStr :=
  if maxValues ≤ (run.flatMap (listed minVal maxVal)).length then run
  else if ∀ last ∈ run.getLast?, Stays last item then run ++ [item] else [item]

def kept (minVal maxVal : Int) (items : List CStr) : List CStr :=
  items.foldl (keep minVal maxVal) []

def Matches (minVal maxVal : Int) (item : CStr) (v : Int) : Prop :=
  cronFieldMatches (cronParseField item minVal maxVal) v = true

/-- The field matches the values in its bounds that one of its items matches. -/
def UnionOfItems (minVal maxVal : Int) (items : List CStr) : Prop :=
  ∀ v, minVal ≤ v → v ≤ maxVal →
    (Matches minVal maxVal (fieldText items) v ↔ ∃ item ∈ items, Matches minVal maxVal item v)

/-! ## One item -/

/-- An item as the tokenizer returns it. -/
structure Token (item : CStr) : Prop where
  nonempty : item ≠ []
  noComma : ∀ b ∈ item, b ≠ comma
  length_le : item.length ≤ 255

theorem token_of_mem_readItems {text item : CStr} (h : item ∈ readItems text) : Token item := by
  obtain ⟨hne, hfree, hsub⟩ := mem_pieces h
  refine ⟨hne, fun b hb => by simpa using hfree b hb, hsub.length_le.trans ?_⟩
  rw [strncpy, List.length_take]
  exact Nat.min_le_left _ _

theorem cronParseField_eq {text : CStr} (hne : text ≠ []) :
    cronParseField text minVal maxVal =
      parseItems minVal maxVal (readItems text) ⟨.any, []⟩ := by
  by_cases hstar : text = star
  · subst hstar
    have hread : readItems star = [star] := by decide
    rw [hread]
    rfl
  · rw [cronParseField, if_neg (by simp [hne, hstar])]
    rfl

theorem readItems_token {item : CStr} (h : Token item) : readItems item = [item] := by
  rw [readItems, strncpy_of_le h.length_le]
  exact pieces_single (fun b hb => by simpa using h.noComma b hb) h.nonempty

theorem cronParseField_token {item : CStr} (h : Token item) :
    cronParseField item minVal maxVal = parseItem ⟨.any, []⟩ item minVal maxVal := by
  rw [cronParseField_eq h.nonempty, readItems_token h]
  rfl

theorem rangeValues_take (lo hi step : Int) {m n : Nat} (h : m ≤ n) :
    (rangeValues lo hi step n).take m = rangeValues lo hi step m := by
  induction m generalizing lo n with
  | zero => rfl
  | succ m ih =>
      obtain ⟨n, rfl⟩ := Nat.exists_eq_add_one_of_ne_zero (n := n) (by omega)
      rw [rangeValues, rangeValues]
      split
      · rw [List.take_succ_cons, ih _ (by omega)]
      · rfl

theorem rangeValues_length_le (lo hi step : Int) (room : Nat) :
    (rangeValues lo hi step room).length ≤ room := by
  rw [← rangeValues_take lo hi step (Nat.le_refl room), List.length_take]
  exact Nat.min_le_left _ _

theorem parseItem_number {item : CStr} (h : IsNumber item) (field : CronFieldDef) :
    parseItem field item minVal maxVal =
      if field.type = .specific then ⟨.specific, field.values ++ [atoi item]⟩
      else ⟨.specific, [atoi item]⟩ := by
  rw [parseItem, strchr_of_not_mem h.2.1, strchr_of_not_mem h.2.2]
  exact if_neg h.1

/-- A range or a step lists as many of its values as there is room for. -/
theorem parseItem_range {item : CStr} (hstar : item ≠ star) (hnumber : ¬IsNumber item) :
    ∃ (type : CronEntryType) (values : List Int), type ≠ .any ∧ type ≠ .specific ∧
      values.length ≤ maxValues ∧ ∀ field : CronFieldDef, parseItem field item minVal maxVal =
        ⟨type, field.values ++ values.take (maxValues - field.values.length)⟩ := by
  have hroom (field : CronFieldDef) : maxValues - field.values.length ≤ maxValues :=
    Nat.sub_le _ _
  by_cases hslash : slash ∈ item
  · refine ⟨.step, rangeValues (stepBounds item minVal maxVal).1 (stepBounds item minVal maxVal).2
      (stepOf (item.dropWhile (· ≠ slash)).tail) maxValues, by simp, by simp,
      rangeValues_length_le _ _ _ _, fun field => ?_⟩
    rw [rangeValues_take _ _ _ (hroom field), parseItem, strchr_of_mem hslash]
  · have hdash : dash ∈ item := by
      by_contra hdash
      exact hnumber ⟨hstar, hslash, hdash⟩
    refine ⟨.range, rangeValues (atoi (item.takeWhile (· ≠ dash)))
      (atoi (item.dropWhile (· ≠ dash)).tail) 1 maxValues, by simp, by simp,
      rangeValues_length_le _ _ _ _, fun field => ?_⟩
    rw [rangeValues_take _ _ _ (hroom field), parseItem, strchr_of_not_mem hslash,
      strchr_of_mem hdash]

theorem parseItem_cases (minVal maxVal : Int) {item : CStr} (h : Token item)
    (field : CronFieldDef) :
    (item = star ∧ cronParseField item minVal maxVal = ⟨.any, []⟩ ∧
      parseItem field item minVal maxVal = ⟨.any, []⟩) ∨
    (IsNumber item ∧ (∃ v, cronParseField item minVal maxVal = ⟨.specific, [v]⟩) ∧
      parseItem field item minVal maxVal =
        if field.type = .specific then ⟨.specific, field.values ++ listed minVal maxVal item⟩
        else cronParseField item minVal maxVal) ∨
    (item ≠ star ∧ ¬IsNumber item ∧ (cronParseField item minVal maxVal).type ≠ .any ∧
      (cronParseField item minVal maxVal).type ≠ .specific ∧
      (listed minVal maxVal item).length ≤ maxValues ∧ parseItem field item minVal maxVal =
        ⟨(cronParseField item minVal maxVal).type,
          field.values ++ (listed minVal maxVal item).take (maxValues - field.values.length)⟩) := by
  rw [listed, cronParseField_token h]
  by_cases hstar : item = star
  · subst hstar
    exact .inl ⟨rfl, rfl, rfl⟩
  by_cases hnumber : IsNumber item
  · have halone : parseItem ⟨.any, []⟩ item minVal maxVal = ⟨.specific, [atoi item]⟩ := by
      rw [parseItem_number hnumber]
      exact if_neg (by simp)
    refine .inr (.inl ⟨hnumber, ⟨atoi item, halone⟩, ?_⟩)
    rw [halone, parseItem_number hnumber]
  · obtain ⟨type, values, hany, hspecific, hlength, heq⟩ :=
      parseItem_range hstar hnumber
    have halone : parseItem ⟨.any, []⟩ item minVal maxVal = ⟨type, values⟩ := by
      rw [heq, List.nil_append]
      exact congrArg _ (List.take_of_length_le hlength)
    rw [halone]
    exact .inr (.inr ⟨hstar, hnumber, hany, hspecific, hlength, heq field⟩)

/-! ## Reading the items -/

def fieldOf (minVal maxVal : Int) (run : List CStr) : CronFieldDef where
  type := (run.getLast?.map fun last => (cronParseField last minVal maxVal).type).getD .any
  values := (run.flatMap (listed minVal maxVal)).take maxValues

variable {item : CStr} {run : List CStr}

theorem type_eq_any_iff (h : Token item) :
    (cronParseField item minVal maxVal).type = .any ↔ item = star := by
  rcases parseItem_cases minVal maxVal h ⟨.any, []⟩ with
    ⟨hstar, halone, -⟩ | ⟨hnumber, ⟨v, halone⟩, -⟩ | ⟨hstar, -, hany, -⟩
  · exact iff_of_true (by rw [halone]) hstar
  · exact iff_of_false (by simp [halone]) hnumber.1
  · exact iff_of_false hany hstar

theorem type_eq_specific_iff (h : Token item) :
    (cronParseField item minVal maxVal).type = .specific ↔ IsNumber item := by
  rcases parseItem_cases minVal maxVal h ⟨.any, []⟩ with
    ⟨hstar, halone, -⟩ | ⟨hnumber, ⟨v, halone⟩, -⟩ | ⟨-, hnumber, -, hspecific, -⟩
  · exact iff_of_false (by rw [halone]; decide) fun hnumber => hnumber.1 hstar
  · exact iff_of_true (by rw [halone]) hnumber
  · exact iff_of_false hspecific hnumber

theorem listed_star : listed minVal maxVal star = [] := rfl

theorem listed_length_le (h : Token item) : (listed minVal maxVal item).length ≤ maxValues := by
  rcases parseItem_cases minVal maxVal h ⟨.any, []⟩ with
    ⟨-, halone, -⟩ | ⟨-, ⟨v, halone⟩, -⟩ | ⟨-, -, -, -, hlength, -⟩
  · rw [listed, halone]
    exact Nat.zero_le _
  · rw [listed, halone, List.length_singleton]
    decide
  · exact hlength

theorem fieldOf_singleton (h : Token item) :
    fieldOf minVal maxVal [item] = cronParseField item minVal maxVal := by
  rw [fieldOf, List.flatMap_singleton, List.take_of_length_le (listed_length_le h)]
  rfl

theorem fieldOf_concat (run : List CStr) (item : CStr) :
    fieldOf minVal maxVal (run ++ [item]) = ⟨(cronParseField item minVal maxVal).type,
      ((run.flatMap (listed minVal maxVal)) ++ listed minVal maxVal item).take maxValues⟩ := by
  simp [fieldOf]

def StarAlone (run : List CStr) : Prop := star ∈ run → run = [star]

theorem eq_nil_of_stays_star (h : ∀ last ∈ run.getLast?, Stays last star) : run = [] := by
  cases hlast : run.getLast? with
  | none => exact List.getLast?_eq_none_iff.mp hlast
  | some last => exact absurd rfl (h last hlast).2.1

theorem starAlone_keep (h : StarAlone run) (item : CStr) :
    StarAlone (keep minVal maxVal run item) := by
  rw [keep]
  split
  · exact h
  · split
    · next hstays =>
        intro hstar
        rcases List.mem_append.mp hstar with hrun | hitem
        · rw [h hrun] at hstays
          exact absurd rfl (hstays star rfl).1
        · obtain rfl := List.mem_singleton.mp hitem
          rw [eq_nil_of_stays_star hstays, List.nil_append]
    · intro hstar
      rw [List.mem_singleton.mp hstar]

theorem type_fieldOf_eq_specific_iff (hrun : ∀ item ∈ run, Token item) :
    (fieldOf minVal maxVal run).type = .specific ↔ ∃ last ∈ run.getLast?, IsNumber last := by
  cases hlast : run.getLast? with
  | none => simp [fieldOf, hlast]
  | some last =>
      have htoken := hrun last (List.mem_of_getLast? hlast)
      simpa [fieldOf, hlast] using type_eq_specific_iff htoken

theorem parseItem_fieldOf (hrun : ∀ item ∈ run, Token item) (halone : StarAlone run)
    (hitem : Token item) (hroom : (run.flatMap (listed minVal maxVal)).length < maxValues) :
    parseItem (fieldOf minVal maxVal run) item minVal maxVal =
      fieldOf minVal maxVal
        (if ∀ last ∈ run.getLast?, Stays last item then run ++ [item] else [item]) := by
  have hvalues : (fieldOf minVal maxVal run).values = run.flatMap (listed minVal maxVal) :=
    List.take_of_length_le hroom.le
  rcases parseItem_cases minVal maxVal hitem (fieldOf minVal maxVal run) with
    ⟨hstar, hfield, heq⟩ | ⟨hnumber, ⟨v, hfield⟩, heq⟩ | ⟨hstar, hnumber, -, -, hlength, heq⟩
  · have hkeep : (if ∀ last ∈ run.getLast?, Stays last item then run ++ [item] else [item]) =
        [item] := by
      subst hstar
      split
      · next hstays => rw [eq_nil_of_stays_star hstays, List.nil_append]
      · rfl
    rw [hkeep, fieldOf_singleton hitem, hfield, heq]
  · rw [heq]
    split
    · next hspecific =>
        obtain ⟨last, hlast, hnumber'⟩ := (type_fieldOf_eq_specific_iff hrun).mp hspecific
        have hstays : ∀ b ∈ run.getLast?, Stays b item := by
          intro b hb
          obtain rfl := Option.some.inj (hlast.symm.trans hb)
          exact ⟨hnumber'.1, hnumber.1, fun _ => hnumber'⟩
        have hlisted : listed minVal maxVal item = [v] := by rw [listed, hfield]
        rw [if_pos hstays, fieldOf_concat, hvalues, hfield, hlisted, List.take_of_length_le]
        rw [List.length_append, List.length_singleton]
        exact hroom
    · next hspecific =>
        rw [← fieldOf_singleton hitem]
        split
        · next hstays =>
            cases hend : run.getLast? with
            | none => rw [List.getLast?_eq_none_iff.mp hend, List.nil_append]
            | some last =>
                exact absurd ((type_fieldOf_eq_specific_iff hrun).mpr
                  ⟨last, hend, (hstays last hend).2.2 hnumber⟩) hspecific
        · rfl
  · rw [heq, hvalues]
    split
    · rw [fieldOf_concat, List.take_append, List.take_of_length_le hroom.le]
    · next hstays =>
        have hrun : run = [Cron.star] := by
          by_contra hne
          refine hstays fun last hlast => ⟨?_, hstar, fun h => absurd h hnumber⟩
          rintro rfl
          exact hne (halone (List.mem_of_getLast? hlast))
        rw [hrun, List.flatMap_singleton, listed_star, fieldOf_singleton hitem, List.nil_append,
          List.length_nil, Nat.sub_zero, List.take_of_length_le hlength, listed]

theorem fieldOf_keep (hrun : ∀ item ∈ run, Token item) (halone : StarAlone run)
    (hitem : Token item) :
    (if (fieldOf minVal maxVal run).values.length < maxValues then
        parseItem (fieldOf minVal maxVal run) item minVal maxVal
      else fieldOf minVal maxVal run) =
      fieldOf minVal maxVal (keep minVal maxVal run item) := by
  have hlength : (fieldOf minVal maxVal run).values.length < maxValues ↔
      ¬maxValues ≤ (run.flatMap (listed minVal maxVal)).length := by
    rw [fieldOf, List.length_take]
    omega
  rw [keep]
  by_cases hfull : maxValues ≤ (run.flatMap (listed minVal maxVal)).length
  · rw [if_neg (fun h => hlength.mp h hfull), if_pos hfull]
  · rw [if_pos (hlength.mpr hfull), if_neg hfull]
    exact parseItem_fieldOf hrun halone hitem (Nat.not_le.mp hfull)

theorem kept_concat (items : List CStr) (last : CStr) :
    kept minVal maxVal (items ++ [last]) = keep minVal maxVal (kept minVal maxVal items) last := by
  rw [kept, List.foldl_append, List.foldl_cons, List.foldl_nil, kept]

theorem mem_of_mem_kept {items : List CStr} (h : item ∈ kept minVal maxVal items) :
    item ∈ items := by
  induction items using List.reverseRecOn with
  | nil => exact h
  | append_singleton items last ih =>
      rw [kept_concat, keep] at h
      rw [List.mem_append, List.mem_singleton]
      split at h
      · exact .inl (ih h)
      · split at h
        · exact (List.mem_append.mp h).imp ih List.mem_singleton.mp
        · exact .inr (List.mem_singleton.mp h)

theorem starAlone_kept (minVal maxVal : Int) (items : List CStr) :
    StarAlone (kept minVal maxVal items) := by
  induction items using List.reverseRecOn with
  | nil => exact fun hstar => absurd hstar List.not_mem_nil
  | append_singleton items last ih =>
      rw [kept_concat]
      exact starAlone_keep ih last

theorem parseItems_concat (items : List CStr) (last : CStr) (field : CronFieldDef) :
    parseItems minVal maxVal (items ++ [last]) field =
      (if (parseItems minVal maxVal items field).values.length < maxValues then
        parseItem (parseItems minVal maxVal items field) last minVal maxVal
      else parseItems minVal maxVal items field) := by
  induction items generalizing field with
  | nil => rfl
  | cons item items ih =>
      rw [List.cons_append, parseItems, parseItems]
      split
      · exact ih _
      · rfl

/-- The items that are read leave the values of those that are kept. -/
theorem parseItems_eq {items : List CStr} (hitems : ∀ item ∈ items, Token item) :
    parseItems minVal maxVal items ⟨.any, []⟩ =
      fieldOf minVal maxVal (kept minVal maxVal items) := by
  induction items using List.reverseRecOn with
  | nil => rfl
  | append_singleton items last ih =>
      have hfront : ∀ item ∈ items, Token item := fun item hitem =>
        hitems item (List.mem_append_left _ hitem)
      have hlast : Token last := hitems last (List.mem_append_right _ (List.mem_singleton_self _))
      have hkept : ∀ item ∈ kept minVal maxVal items, Token item := fun item hitem =>
        hfront item (mem_of_mem_kept hitem)
      rw [parseItems_concat, ih hfront, kept_concat]
      exact fieldOf_keep hkept (starAlone_kept minVal maxVal items) hlast

/-! ## The field -/

def ListedByKept (minVal maxVal : Int) (read : List CStr) (v : Int) : Prop :=
  star ∈ kept minVal maxVal read ∨
    v ∈ ((kept minVal maxVal read).flatMap (listed minVal maxVal)).take maxValues

/-- What an item lists that is not kept, the kept items list too. -/
def NothingLost (minVal maxVal : Int) (items : List CStr) : Prop :=
  ∀ v, minVal ≤ v → v ≤ maxVal → ∀ item ∈ items, Matches minVal maxVal item v →
    ListedByKept minVal maxVal (readItems (fieldText items)) v

/-- What the kept items list, one of the items of the field lists, also where the text is cut
within an item. -/
def NothingAdded (minVal maxVal : Int) (items : List CStr) : Prop :=
  ∀ v, minVal ≤ v → v ≤ maxVal → ListedByKept minVal maxVal (readItems (fieldText items)) v →
    ∃ item ∈ items, Matches minVal maxVal item v

theorem matches_iff (item : CStr) (v : Int) :
    Matches minVal maxVal item v ↔
      (cronParseField item minVal maxVal).type = .any ∨ v ∈ listed minVal maxVal item := by
  simp [Matches, cronFieldMatches, listed]

theorem kept_ne_nil {items : List CStr} (hne : items ≠ []) : kept minVal maxVal items ≠ [] := by
  obtain ⟨front, last, rfl⟩ := List.eq_nil_or_concat' items |>.resolve_left hne
  rw [kept_concat, keep]
  split
  · next hfull =>
      intro hnil
      rw [hnil, List.flatMap_nil] at hfull
      exact absurd hfull (by decide)
  · split <;> simp

theorem type_fieldOf_kept (hne : run ≠ []) (hrun : ∀ item ∈ run, Token item)
    (halone : StarAlone run) : (fieldOf minVal maxVal run).type = .any ↔ star ∈ run := by
  obtain ⟨front, last, rfl⟩ := List.eq_nil_or_concat' run |>.resolve_left hne
  have hlast : Token last := hrun last (by simp)
  rw [fieldOf_concat, type_eq_any_iff hlast]
  constructor
  · rintro rfl
    exact List.mem_append_right _ (List.mem_singleton_self _)
  · intro hstar
    have hfront : front ++ [last] = [] ++ [Cron.star] := halone hstar
    exact List.head_eq_of_cons_eq (List.append_inj_right' hfront rfl)

theorem matches_text_iff {text : CStr} (hread : readItems text ≠ []) (v : Int) :
    Matches minVal maxVal text v ↔ ListedByKept minVal maxVal (readItems text) v := by
  have hne : text ≠ [] := by
    rintro rfl
    exact hread rfl
  have hitems : ∀ item ∈ readItems text, Token item := fun item => token_of_mem_readItems
  have hkept : ∀ item ∈ kept minVal maxVal (readItems text), Token item := fun item hitem =>
    hitems item (mem_of_mem_kept hitem)
  rw [matches_iff, listed, cronParseField_eq hne, parseItems_eq hitems, ListedByKept,
    type_fieldOf_kept (kept_ne_nil hread) hkept (starAlone_kept _ _ _)]
  rfl

theorem readItems_fieldText {items : List CStr}
    (hitems : ∀ item ∈ items, item ≠ [] ∧ ∀ b ∈ item, b ≠ comma)
    (hlength : (fieldText items).length ≤ 255) : readItems (fieldText items) = items := by
  rw [readItems, strncpy_of_le hlength, fieldText]
  clear hlength
  induction items with
  | nil => rfl
  | cons item items ih =>
      obtain ⟨hne, hfree⟩ := hitems item List.mem_cons_self
      have hfree' : ∀ b ∈ item, (b == comma) = false := fun b hb => by simpa using hfree b hb
      have hrest := ih fun item hitem => hitems item (List.mem_cons_of_mem _ hitem)
      cases items with
      | nil => simpa using pieces_single hfree' hne
      | cons next items =>
          rw [List.intercalate_cons_cons, List.append_assoc, List.singleton_append,
            pieces_append hfree' hne (by simp), hrest]

/-- Where the kept items list at most 64 values, a value is listed when one of them matches it. -/
theorem listedByKept_iff {read : List CStr} (hread : ∀ item ∈ read, Token item)
    (hfit : ((kept minVal maxVal read).flatMap (listed minVal maxVal)).length ≤ maxValues)
    (v : Int) : ListedByKept minVal maxVal read v ↔
      ∃ item ∈ kept minVal maxVal read, Matches minVal maxVal item v := by
  have htoken : ∀ item ∈ kept minVal maxVal read, Token item := fun item hitem =>
    hread item (mem_of_mem_kept hitem)
  rw [ListedByKept, List.take_of_length_le hfit, List.mem_flatMap]
  constructor
  · rintro (hstar | ⟨item, hitem, hv⟩)
    · exact ⟨star, hstar, (matches_iff star v).mpr (.inl rfl)⟩
    · exact ⟨item, hitem, (matches_iff item v).mpr (.inr hv)⟩
  · rintro ⟨item, hitem, hmatches⟩
    rcases (matches_iff item v).mp hmatches with htype | hv
    · obtain rfl := (type_eq_any_iff (htoken item hitem)).mp htype
      exact .inl hitem
    · exact .inr ⟨item, hitem, hv⟩

theorem nothingAdded_of_short {items : List CStr}
    (hitems : ∀ item ∈ items, item ≠ [] ∧ ∀ b ∈ item, b ≠ comma)
    (hlength : (fieldText items).length ≤ 255) : NothingAdded minVal maxVal items := by
  intro v _ _ hlisted
  rw [readItems_fieldText hitems hlength] at hlisted
  rcases hlisted with hstar | hv
  · exact ⟨star, mem_of_mem_kept hstar, (matches_iff star v).mpr (.inl rfl)⟩
  · obtain ⟨item, hitem, hv⟩ := List.mem_flatMap.mp (List.mem_of_mem_take hv)
    exact ⟨item, mem_of_mem_kept hitem, (matches_iff item v).mpr (.inr hv)⟩

theorem readItems_fieldText_ne_nil {items : List CStr} (hne : items ≠ [])
    (hitems : ∀ item ∈ items, item ≠ [] ∧ ∀ b ∈ item, b ≠ comma) :
    readItems (fieldText items) ≠ [] := by
  obtain ⟨item, items, rfl⟩ := List.exists_cons_of_ne_nil hne
  obtain ⟨hitem, hfree⟩ := hitems item List.mem_cons_self
  obtain ⟨b, rest, rfl⟩ := List.exists_cons_of_ne_nil hitem
  have hb : (fun x : UInt8 => x == comma) b = false := by simpa using hfree b List.mem_cons_self
  have htext : ∃ rest', fieldText ((b :: rest) :: items) = b :: rest' := by
    cases items with
    | nil => exact ⟨rest, by simp [fieldText]⟩
    | cons next items => exact ⟨_, by rw [fieldText, List.intercalate_cons_cons]; rfl⟩
  obtain ⟨rest', htext⟩ := htext
  have hpieces : pieces (fun x : UInt8 => x == comma) (b :: rest'.take 254) = _ :=
    pieces_cons_token hb
  rw [htext, readItems, strncpy, List.take_succ_cons, hpieces]
  exact List.cons_ne_nil _ _

/-- A field means the union of its items exactly when no item that removes another one, and no cut
of the text, makes a difference. -/
theorem union_of_items_iff {items : List CStr} (hne : items ≠ [])
    (hitems : ∀ item ∈ items, item ≠ [] ∧ ∀ b ∈ item, b ≠ comma) :
    UnionOfItems minVal maxVal items ↔
      NothingLost minVal maxVal items ∧ NothingAdded minVal maxVal items := by
  have hread := readItems_fieldText_ne_nil hne hitems
  constructor
  · intro h
    constructor
    · intro v hmin hmax item hitem hmatches
      exact (matches_text_iff hread v).mp ((h v hmin hmax).mpr ⟨item, hitem, hmatches⟩)
    · intro v hmin hmax hlisted
      exact (h v hmin hmax).mp ((matches_text_iff hread v).mpr hlisted)
  · rintro ⟨hlost, hadded⟩ v hmin hmax
    rw [matches_text_iff hread v]
    constructor
    · exact hadded v hmin hmax
    · rintro ⟨item, hitem, hmatches⟩
      exact hlost v hmin hmax item hitem hmatches

/-- A number before a range. -/
def numberThenRange : List CStr := [lit "10", lit "1-5"]

theorem union_of_items_iff_numberThenRange : UnionOfItems 0 59 numberThenRange := by
  have hitems : ∀ item ∈ numberThenRange, item ≠ [] ∧ ∀ b ∈ item, b ≠ comma := by decide +kernel
  have hshort : (fieldText numberThenRange).length ≤ 255 := by decide +kernel
  have hkept : kept 0 59 numberThenRange = numberThenRange := by decide +kernel
  have hlost : NothingLost 0 59 numberThenRange := by
    intro v _ _ item hitem hmatches
    have hread := readItems_fieldText hitems hshort
    rw [listedByKept_iff (fun item => token_of_mem_readItems), hread, hkept]
    · exact ⟨item, hitem, hmatches⟩
    · rw [hread, hkept]
      decide +kernel
  exact (union_of_items_iff (by simp [numberThenRange]) hitems).mpr
    ⟨hlost, nothingAdded_of_short hitems hshort⟩

/-- In the other order the number removes the range. -/
theorem range_lost_before_number : ¬UnionOfItems 0 59 [lit "1-5", lit "10"] := by
  intro h
  have hrange : Matches 0 59 (lit "1-5") 3 := by
    rw [Matches]
    decide
  have hfield := (h 3 (by decide) (by decide)).mpr ⟨_, List.mem_cons_self, hrange⟩
  rw [Matches] at hfield
  exact absurd hfield (by decide)

end MiniBackend.JobSystem.Proofs.CronUnion
