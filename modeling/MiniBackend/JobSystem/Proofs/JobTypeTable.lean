import MiniBackend.JobSystem.WorkerPool
import Mathlib.Data.List.Perm.Basic

/-!
# The table of job types without races

A thread is at a stage: it looks a type up, it uses an index that a lookup returned, or it has
nothing to do with the table.  As long as no two lookups race, an index that is in use stays the
first one with its name, and nobody writes a new entry there.
-/

namespace MiniBackend.JobSystem.Proofs.JobTypeTable

open MiniBackend.Lib.CString MiniBackend.JobSystem.Pool

inductive Stage
  | idle
  | searching (jobType : CStr) (l : Lookup)
  | found (jobType : CStr) (i : Nat)
deriving DecidableEq

def writes : Lookup → Bool
  | .scan _ | .full | .number => false
  | .count _ | .name _ | .limit _ | .current _ => true

/-- The scan has ended without an index. -/
def decided : Lookup → Bool
  | .scan _ => false
  | .full | .number | .count _ | .name _ | .limit _ | .current _ => true

/-- The entry that is being written. -/
def fresh : Lookup → Option Nat
  | .scan _ | .full | .number | .count _ => none
  | .name i | .limit i | .current i => some i

/-- Two lookups do not race: neither of them writes, and at most one of them has found nothing. -/
def Compatible : Stage → Stage → Prop
  | .searching _ l, .searching _ l' =>
      writes l = false ∧ writes l' = false ∧ (decided l && decided l') = false
  | _, _ => True

instance (s s' : Stage) : Decidable (Compatible s s') :=
  match s, s' with
  | .searching .., .searching .. => inferInstanceAs (Decidable (_ ∧ _ ∧ _))
  | .searching .., .idle | .searching .., .found .. | .idle, _ | .found .., _ => .isTrue trivial

theorem Compatible.symm {s s' : Stage} (h : Compatible s s') : Compatible s' s := by
  cases s with
  | searching jobType l =>
      cases s' with
      | searching jobType' l' => exact ⟨h.2.1, h.1, by rw [Bool.and_comm]; exact h.2.2⟩
      | _ => trivial
  | _ => cases s' <;> trivial

theorem writes_of_fresh {l : Lookup} {i : Nat} (h : fresh l = some i) : writes l = true := by
  cases l with
  | name | limit | current => rfl
  | _ => cases h

/-! ## Names -/

def Absent (table : JobTypes) (jobType : CStr) (n : Nat) : Prop :=
  ∀ j < n, table.nameAt j ≠ some jobType

/-- The index is in use for the type: the first one with its name, if the name fits. -/
structure Located (table : JobTypes) (jobType : CStr) (i : Nat) : Prop where
  stored : i < table.count
  absent : Absent table jobType i
  name_eq : jobType.length ≤ wpJobTypeLen - 1 → table.nameAt i = some jobType

def storedName (jobType : CStr) : CStr := strncpy jobType (wpJobTypeLen - 1)

/-- What a lookup knows at its next access. -/
def Progress (table : JobTypes) (jobType : CStr) : Lookup → Prop
  | .scan i => i ≤ table.count ∧ Absent table jobType i
  | .full | .number => Absent table jobType table.count
  | .count i => i = table.count ∧ i < wpMaxJobTypes ∧ Absent table jobType i
  | .name i => i + 1 = table.count ∧ Absent table jobType i
  | .limit i | .current i =>
      i + 1 = table.count ∧ Absent table jobType i ∧ table.nameAt i = some (storedName jobType)

def Sound (table : JobTypes) : Stage → Prop
  | .idle => True
  | .searching jobType l => Progress table jobType l
  | .found jobType i => Located table jobType i

structure Consistent (table : JobTypes) (stages : List Stage) : Prop where
  length_eq : table.entries.length = wpMaxJobTypes
  count_le : table.count ≤ wpMaxJobTypes
  sound : ∀ s ∈ stages, Sound table s
  apart : ∀ jobType i, .found jobType i ∈ stages → ∀ jobType' l, .searching jobType' l ∈ stages →
    ∀ j, fresh l = some j → i < j

theorem Located.unique {table : JobTypes} {jobType : CStr}
    (hfits : jobType.length ≤ wpJobTypeLen - 1) {i j : Nat} (hi : Located table jobType i)
    (hj : Located table jobType j) : i = j := by
  rcases Nat.lt_trichotomy i j with hlt | heq | hlt
  · exact absurd (hi.name_eq hfits) (hj.absent i hlt)
  · exact heq
  · exact absurd (hj.name_eq hfits) (hi.absent j hlt)

theorem Located.congr {table table' : JobTypes} {jobType : CStr} {i : Nat}
    (h : Located table jobType i) (hcount : table.count ≤ table'.count)
    (hnames : ∀ j ≤ i, table'.nameAt j = table.nameAt j) : Located table' jobType i where
  stored := h.stored.trans_le hcount
  absent j hj := by
    rw [hnames j hj.le]
    exact h.absent j hj
  name_eq hfits := by
    rw [hnames i le_rfl]
    exact h.name_eq hfits

/-! ## Writing entries -/

theorem JobTypes.length_modify (table : JobTypes) (i : Nat)
    (f : WpConcurrencyLimit → WpConcurrencyLimit) :
    (table.modify i f).entries.length = table.entries.length := List.length_modify ..

theorem JobTypes.getElem?_modify (table : JobTypes) (i j : Nat)
    (f : WpConcurrencyLimit → WpConcurrencyLimit) :
    (table.modify i f).entries[j]? =
      if i = j then table.entries[j]?.map f else table.entries[j]? := by
  rw [JobTypes.modify, List.getElem?_modify]
  split <;> simp

theorem JobTypes.nameAt_modify_of_ne {table : JobTypes} {i j : Nat} (hne : i ≠ j)
    (f : WpConcurrencyLimit → WpConcurrencyLimit) :
    (table.modify i f).nameAt j = table.nameAt j := by
  rw [JobTypes.nameAt, JobTypes.getElem?_modify, if_neg hne, JobTypes.nameAt]

theorem JobTypes.nameAt_modify (f : WpConcurrencyLimit → WpConcurrencyLimit)
    (hname : ∀ entry, (f entry).name = entry.name) (table : JobTypes) (i j : Nat) :
    (table.modify i f).nameAt j = table.nameAt j := by
  rw [JobTypes.nameAt, JobTypes.getElem?_modify, JobTypes.nameAt]
  split
  · rw [Option.map_map]
    exact congrArg (Option.map · _) (funext hname)
  · rfl

theorem JobTypes.nameAt_setName {table : JobTypes} {i : Nat} (hi : i < table.entries.length)
    (jobType : CStr) : (table.modify i (setName jobType)).nameAt i = some (storedName jobType) := by
  rw [JobTypes.nameAt, JobTypes.getElem?_modify, if_pos rfl, List.getElem?_eq_getElem hi]
  rfl

theorem Absent.congr {table table' : JobTypes} {jobType : CStr} {n : Nat}
    (h : Absent table jobType n) (hnames : ∀ j < n, table'.nameAt j = table.nameAt j) :
    Absent table' jobType n := by
  intro j hj
  rw [hnames j hj]
  exact h j hj

/-! ## The stages of the threads -/

theorem Consistent.perm {table : JobTypes} {stages stages' : List Stage}
    (h : Consistent table stages) (hperm : stages.Perm stages') : Consistent table stages' where
  length_eq := h.length_eq
  count_le := h.count_le
  sound s hs := h.sound s (hperm.mem_iff.mpr hs)
  apart jobType i hfound jobType' l hsearch :=
    h.apart jobType i (hperm.mem_iff.mpr hfound) jobType' l (hperm.mem_iff.mpr hsearch)

theorem Consistent.tail {table : JobTypes} {s : Stage} {others : List Stage}
    (h : Consistent table (s :: others)) : Consistent table others where
  length_eq := h.length_eq
  count_le := h.count_le
  sound s' hs' := h.sound s' (List.mem_cons_of_mem s hs')
  apart jobType i hfound jobType' l hsearch :=
    h.apart jobType i (List.mem_cons_of_mem s hfound) jobType' l (List.mem_cons_of_mem s hsearch)

theorem Consistent.idle {table : JobTypes} {stages : List Stage} (h : Consistent table stages) :
    Consistent table (.idle :: stages) where
  length_eq := h.length_eq
  count_le := h.count_le
  sound s hs := by
    rcases List.mem_cons.mp hs with rfl | hold
    · trivial
    · exact h.sound s hold
  apart jobType i hfound jobType' l hsearch := by
    simp only [List.mem_cons, reduceCtorEq, false_or] at hfound hsearch
    exact h.apart jobType i hfound jobType' l hsearch

theorem Consistent.found {table : JobTypes} {stages : List Stage} (h : Consistent table stages)
    {jobType : CStr} {i : Nat} (hlocated : Located table jobType i)
    (hapart : ∀ jobType' l, .searching jobType' l ∈ stages → ∀ j, fresh l = some j → i < j) :
    Consistent table (.found jobType i :: stages) where
  length_eq := h.length_eq
  count_le := h.count_le
  sound s hs := by
    rcases List.mem_cons.mp hs with rfl | hold
    · exact hlocated
    · exact h.sound s hold
  apart jobType' i' hfound jobType'' l hsearch j hj := by
    simp only [List.mem_cons, reduceCtorEq, false_or, Stage.found.injEq] at hfound hsearch
    rcases hfound with ⟨-, rfl⟩ | hold
    · exact hapart jobType'' l hsearch j hj
    · exact h.apart jobType' i' hold jobType'' l hsearch j hj

theorem Consistent.searching {table : JobTypes} {stages : List Stage}
    (h : Consistent table stages) {jobType : CStr} {l : Lookup}
    (hprogress : Progress table jobType l)
    (hapart : ∀ j, fresh l = some j → ∀ jobType' i, .found jobType' i ∈ stages → i < j) :
    Consistent table (.searching jobType l :: stages) where
  length_eq := h.length_eq
  count_le := h.count_le
  sound s hs := by
    rcases List.mem_cons.mp hs with rfl | hold
    · exact hprogress
    · exact h.sound s hold
  apart jobType' i hfound jobType'' l' hsearch j hj := by
    simp only [List.mem_cons, reduceCtorEq, false_or, Stage.searching.injEq] at hfound hsearch
    rcases hsearch with ⟨-, rfl⟩ | hold
    · exact hapart j hj jobType' i hfound
    · exact h.apart jobType' i hfound jobType'' l' hold j hj

/-- A change of the counters of an entry is not seen by the lookups. -/
theorem Consistent.modify {table : JobTypes} {stages : List Stage} (h : Consistent table stages)
    (i : Nat) (f : WpConcurrencyLimit → WpConcurrencyLimit)
    (hname : ∀ entry, (f entry).name = entry.name) : Consistent (table.modify i f) stages where
  length_eq := (JobTypes.length_modify table i f).trans h.length_eq
  count_le := h.count_le
  sound s hs := by
    have hnames : ∀ j, (table.modify i f).nameAt j = table.nameAt j :=
      JobTypes.nameAt_modify f hname table i
    have habsent : ∀ {jobType n}, Absent table jobType n → Absent (table.modify i f) jobType n :=
      fun habsent => habsent.congr fun j _ => hnames j
    have hsound := h.sound s hs
    cases s with
    | idle => trivial
    | found jobType j => exact hsound.congr le_rfl fun j _ => hnames j
    | searching jobType l =>
        cases l with
        | scan j => exact ⟨hsound.1, habsent hsound.2⟩
        | full => exact habsent hsound
        | number => exact habsent hsound
        | count j => exact ⟨hsound.1, hsound.2.1, habsent hsound.2.2⟩
        | name j => exact ⟨hsound.1, habsent hsound.2⟩
        | limit j => exact ⟨hsound.1, habsent hsound.2.1, (hnames j).trans hsound.2.2⟩
        | current j => exact ⟨hsound.1, habsent hsound.2.1, (hnames j).trans hsound.2.2⟩
  apart := h.apart

/-! ## One access -/

def afterAccess (jobType : CStr) : Lookup ⊕ Option Nat → Stage
  | .inl l => .searching jobType l
  | .inr none => .idle
  | .inr (some i) => .found jobType i

section

variable {table : JobTypes} {jobType : CStr} {l : Lookup} {others : List Stage}
  (h : Consistent table (.searching jobType l :: others))
  (hrace : ∀ s ∈ others, Compatible (.searching jobType l) s)

include h hrace

/-- A lookup that writes is the only one. -/
theorem Consistent.written (hwrites : writes l = true) (table' : JobTypes)
    (hlength : table'.entries.length = table.entries.length) (hcount : table.count ≤ table'.count)
    (hmax : table'.count ≤ wpMaxJobTypes)
    (hnames : ∀ jobType' i, .found jobType' i ∈ others →
      ∀ j ≤ i, table'.nameAt j = table.nameAt j) :
    Consistent table' others := by
  have halone : ∀ jobType' l', .searching jobType' l' ∉ others := by
    intro jobType' l' hmem
    have hsilent : writes l = false := (hrace _ hmem).1
    rw [hwrites] at hsilent
    cases hsilent
  refine ⟨hlength.trans h.length_eq, hmax, ?_, ?_⟩
  · intro s hs
    cases s with
    | idle => trivial
    | searching jobType' l' => exact absurd hs (halone jobType' l')
    | found jobType' i =>
        have hlocated : Located table jobType' i := h.tail.sound _ hs
        exact hlocated.congr hcount (hnames jobType' i hs)
  · exact fun _ _ _ jobType' l' hsearch => absurd hsearch (halone jobType' l')

theorem Consistent.access :
    Consistent (findConcurrencyIndex table jobType l).1
      (afterAccess jobType (findConcurrencyIndex table jobType l).2 :: others) := by
  have hprogress : Progress table jobType l := h.sound _ List.mem_cons_self
  have hbefore : ∀ j, fresh l = some j → ∀ jobType' i, .found jobType' i ∈ others → i < j :=
    fun j hj jobType' i hfound => h.apart jobType' i (List.mem_cons_of_mem _ hfound) jobType l
      List.mem_cons_self j hj
  have hlater : ∀ jobType' l', .searching jobType' l' ∈ others → fresh l' = none := by
    intro jobType' l' hmem
    cases hfresh : fresh l' with
    | none => rfl
    | some j =>
        have hsilent : writes l' = false := (hrace _ hmem).2.1
        rw [writes_of_fresh hfresh] at hsilent
        cases hsilent
  have hapart : ∀ i jobType' l', .searching jobType' l' ∈ others → ∀ j, fresh l' = some j →
      i < j := by
    intro i jobType' l' hmem j hj
    rw [hlater jobType' l' hmem] at hj
    cases hj
  cases l with
  | scan i =>
      obtain ⟨hle, habsent⟩ := hprogress
      rw [findConcurrencyIndex]
      by_cases hlt : i < table.count
      · rw [if_pos hlt]
        by_cases hhit : table.nameAt i = some jobType
        · rw [if_pos hhit]
          exact h.tail.found ⟨hlt, habsent, fun _ => hhit⟩ (hapart i)
        · rw [if_neg hhit]
          refine h.tail.searching ⟨hlt, fun j hj => ?_⟩ nofun
          rcases Nat.lt_succ_iff_lt_or_eq.mp hj with hold | rfl
          · exact habsent j hold
          · exact hhit
      · rw [if_neg hlt]
        have hend : i = table.count := Nat.le_antisymm hle (Nat.le_of_not_lt hlt)
        rw [hend] at habsent
        exact h.tail.searching habsent nofun
  | full =>
      rw [findConcurrencyIndex]
      by_cases hroom : table.count < wpMaxJobTypes
      · rw [if_pos hroom]
        exact h.tail.searching hprogress nofun
      · rw [if_neg hroom]
        exact h.tail.idle
  | number =>
      rw [findConcurrencyIndex]
      by_cases hroom : table.count < wpMaxJobTypes
      · rw [if_pos hroom]
        exact h.tail.searching ⟨rfl, hroom, hprogress⟩ nofun
      · rw [if_neg hroom]
        exact h.tail.searching hprogress nofun
  | count i =>
      obtain ⟨rfl, hroom, habsent⟩ := hprogress
      have hothers := h.written hrace rfl { table with count := table.count + 1 } rfl
        (Nat.le_succ _) hroom fun _ _ _ _ _ => rfl
      refine hothers.searching ⟨rfl, habsent⟩ ?_
      intro j hj jobType' i hfound
      obtain rfl : table.count = j := Option.some.inj hj
      have hlocated : Located table jobType' i := h.tail.sound _ hfound
      exact hlocated.stored
  | name i =>
      obtain ⟨hlast, habsent⟩ := hprogress
      have hkept : ∀ j, j ≠ i → (table.modify i (setName jobType)).nameAt j = table.nameAt j :=
        fun j hj => JobTypes.nameAt_modify_of_ne (Ne.symm hj) _
      have hstored : i < table.entries.length := by
        have := h.length_eq
        have := h.count_le
        omega
      have hothers := h.written hrace rfl (table.modify i (setName jobType))
        (JobTypes.length_modify ..) le_rfl h.count_le
        fun jobType' i' hfound j hj => hkept j (hj.trans_lt (hbefore i rfl _ _ hfound)).ne
      exact hothers.searching ⟨hlast, habsent.congr fun j hj => hkept j hj.ne,
        JobTypes.nameAt_setName hstored jobType⟩ hbefore
  | limit i =>
      obtain ⟨hlast, habsent, hname⟩ := hprogress
      have hnames := JobTypes.nameAt_modify (setMax 0) (fun _ => rfl) table i
      exact (h.tail.modify i (setMax 0) fun _ => rfl).searching
        ⟨hlast, habsent.congr fun j _ => hnames j, (hnames i).trans hname⟩ hbefore
  | current i =>
      obtain ⟨hlast, habsent, hname⟩ := hprogress
      have hnames := JobTypes.nameAt_modify (setCurrent 0) (fun _ => rfl) table i
      refine (h.tail.modify i (setCurrent 0) fun _ => rfl).found ⟨?_, ?_, ?_⟩ (hapart i)
      · exact Nat.lt_of_succ_le hlast.le
      · exact habsent.congr fun j _ => hnames j
      · intro hfits
        rw [hnames, hname, storedName, strncpy_of_le hfits]

end

/-- Only the new entry is written. -/
theorem entries_access (table : JobTypes) (jobType : CStr) {l : Lookup} {ci : Nat}
    (hfresh : fresh l ≠ some ci) :
    (findConcurrencyIndex table jobType l).1.entries[ci]? = table.entries[ci]? := by
  cases l with
  | scan i =>
      rw [findConcurrencyIndex]
      split
      · split <;> rfl
      · rfl
  | full => rfl
  | number => rfl
  | count i => rfl
  | name i | limit i | current i =>
      have hne : i ≠ ci := fun heq => hfresh (congrArg some heq)
      exact (JobTypes.getElem?_modify table i ci _).trans (if_neg hne)

theorem current_access (table : JobTypes) (jobType : CStr) (l : Lookup) {ci : Nat}
    {entry' : WpConcurrencyLimit}
    (hentry : (findConcurrencyIndex table jobType l).1.entries[ci]? = some entry') :
    ∃ entry, table.entries[ci]? = some entry ∧
      (entry'.current = entry.current ∨ fresh l = some ci ∧ entry'.current = 0) := by
  by_cases hfresh : fresh l = some ci
  · cases l with
    | name i | limit i | current i =>
        obtain rfl : i = ci := Option.some.inj hfresh
        rw [findConcurrencyIndex, JobTypes.getElem?_modify, if_pos rfl] at hentry
        obtain ⟨entry, hold, rfl⟩ := Option.map_eq_some_iff.mp hentry
        exact ⟨entry, hold, by simp [setName, setMax, setCurrent, fresh]⟩
    | _ => cases hfresh
  · rw [entries_access table jobType hfresh] at hentry
    exact ⟨entry', hentry, .inl rfl⟩

/-- A type that is in the table is found. -/
theorem Consistent.access_ne_none {table : JobTypes} {stages : List Stage}
    (h : Consistent table stages) {jobType : CStr} (hfits : jobType.length ≤ wpJobTypeLen - 1)
    {t : Nat} (hfound : .found jobType t ∈ stages) {l : Lookup}
    (hsearch : .searching jobType l ∈ stages) :
    (findConcurrencyIndex table jobType l).2 ≠ .inr none := by
  have hlocated : Located table jobType t := h.sound _ hfound
  have hprogress : Progress table jobType l := h.sound _ hsearch
  cases l with
  | scan i =>
      rw [findConcurrencyIndex]
      split
      · split <;> nofun
      · nofun
  | full => exact absurd (hlocated.name_eq hfits) (hprogress t hlocated.stored)
  | number => nofun
  | count i => nofun
  | name i => nofun
  | limit i => nofun
  | current i => nofun

end MiniBackend.JobSystem.Proofs.JobTypeTable
