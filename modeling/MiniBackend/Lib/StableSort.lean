import Mathlib.Data.List.Sort
import Mathlib.Order.Basic
import Mathlib.Data.List.Nodup
import Mathlib.Data.List.Perm.Subperm
import Mathlib.Logic.Function.Basic
import Mathlib.Order.Nat

/-!
# Stable sorting by a key

A list that is sorted by a key is determined by its elements of each key, in their order, and
a stable sort keeps those.  So sorting commutes with everything that does.  Nothing here
mentions a particular program.
-/

namespace MiniBackend.Lib.StableSort

section Sorting

variable {α β κ : Type*} [LinearOrder κ]

def sortBy (key : α → κ) (l : List α) : List α := l.insertionSort fun a b => key a ≤ key b

def SortedBy (key : α → κ) (l : List α) : Prop := l.Pairwise fun a b => key a ≤ key b

def withKey (key : α → κ) (k : κ) (l : List α) : List α := l.filter fun a => key a = k

variable {key : α → κ}

theorem sortBy_perm (l : List α) : (sortBy key l).Perm l := List.perm_insertionSort _ l

theorem sortBy_sorted (l : List α) : SortedBy key (sortBy key l) := by
  have htotal : Std.Total fun a b : α => key a ≤ key b := ⟨fun a b => le_total (key a) (key b)⟩
  have htrans : IsTrans α fun a b => key a ≤ key b := ⟨fun _ _ _ => le_trans⟩
  exact List.pairwise_insertionSort _ l

/-! ## Stability -/

theorem withKey_append (k : κ) (l l' : List α) :
    withKey key k (l ++ l') = withKey key k l ++ withKey key k l' := List.filter_append l l'

theorem withKey_orderedInsert (k : κ) (a : α) (l : List α) :
    withKey key k (l.orderedInsert (fun a b => key a ≤ key b) a) = withKey key k (a :: l) := by
  induction l with
  | nil => rfl
  | cons b l ih =>
      by_cases hle : key a ≤ key b
      · rw [List.orderedInsert_cons_of_le _ l hle]
      · rw [List.orderedInsert_of_not_le _ l hle]
        simp only [withKey, List.filter_cons] at ih ⊢
        rw [ih]
        -- `b` goes before `a`, and has another key.
        by_cases ha : key a = k
        · have hb : key b ≠ k := fun hb => hle (le_of_eq (ha.trans hb.symm))
          simp [ha, hb]
        · simp [ha]

theorem withKey_sortBy (k : κ) (l : List α) : withKey key k (sortBy key l) = withKey key k l := by
  induction l with
  | nil => rfl
  | cons a l ih =>
      calc
        withKey key k (sortBy key (a :: l))
            = withKey key k (a :: sortBy key l) := withKey_orderedInsert k a _
        _ = withKey key k [a] ++ withKey key k (sortBy key l) := withKey_append k [a] _
        _ = withKey key k [a] ++ withKey key k l := by rw [ih]
        _ = withKey key k (a :: l) := (withKey_append k [a] l).symm

theorem SortedBy.eq {l l' : List α} (h : SortedBy key l) (h' : SortedBy key l')
    (hkeys : ∀ k, withKey key k l = withKey key k l') : l = l' := by
  induction l generalizing l' with
  | nil =>
      cases l' with
      | nil => rfl
      | cons b l' =>
          have hb := hkeys (key b)
          simp [withKey] at hb
  | cons a l ih =>
      cases l' with
      | nil =>
          have ha := hkeys (key a)
          simp [withKey] at ha
      | cons b l' =>
          have hle : ∀ c ∈ l, key a ≤ key c := (List.pairwise_cons.mp h).1
          have hle' : ∀ c ∈ l', key b ≤ key c := (List.pairwise_cons.mp h').1
          -- Both heads have the least key.
          have hab : key a = key b := by
            apply le_antisymm
            · have hmem : b ∈ withKey key (key b) (a :: l) := by
                rw [hkeys]
                simp [withKey]
              rcases List.mem_cons.mp (List.mem_of_mem_filter hmem) with heq | hmem
              · rw [heq]
              · exact hle b hmem
            · have hmem : a ∈ withKey key (key a) (b :: l') := by
                rw [← hkeys]
                simp [withKey]
              rcases List.mem_cons.mp (List.mem_of_mem_filter hmem) with heq | hmem
              · rw [heq]
              · exact hle' a hmem
          have hhead := hkeys (key a)
          simp only [withKey, List.filter_cons, hab, decide_true, if_true, List.cons.injEq]
            at hhead
          obtain ⟨rfl, _⟩ := hhead
          congr 1
          apply ih (List.pairwise_cons.mp h).2 (List.pairwise_cons.mp h').2
          intro k
          have hk := hkeys k
          simp only [withKey, List.filter_cons] at hk ⊢
          split at hk
          · exact (List.cons.inj hk).2
          · exact hk

theorem sortBy_congr {l l' : List α} (hkeys : ∀ k, withKey key k l = withKey key k l') :
    sortBy key l = sortBy key l' := by
  apply (sortBy_sorted l).eq (sortBy_sorted l')
  intro k
  rw [withKey_sortBy, withKey_sortBy, hkeys]

theorem SortedBy.sortBy_eq {l : List α} (h : SortedBy key l) : sortBy key l = l := by
  apply (sortBy_sorted l).eq h
  intro k
  exact withKey_sortBy k l

theorem sortBy_sortBy_append (l l' : List α) :
    sortBy key (sortBy key l ++ l') = sortBy key (l ++ l') := by
  apply sortBy_congr
  intro k
  rw [withKey_append, withKey_append, withKey_sortBy]

/-- Sorting commutes with a map that keeps the keys and may drop elements. -/
theorem filterMap_sortBy {key' : β → κ} {f : α → Option β}
    (hf : ∀ a b, f a = some b → key' b = key a) (l : List α) :
    (sortBy key l).filterMap f = sortBy key' (l.filterMap f) := by
  have hcomm : ∀ k (l : List α), withKey key' k (l.filterMap f) =
      (withKey key k l).filterMap f := by
    intro k l
    induction l with
    | nil => rfl
    | cons a l ih =>
        simp only [withKey] at ih ⊢
        cases ha : f a with
        | none =>
            rw [List.filterMap_cons_none ha, ih, List.filter_cons]
            split
            · rw [List.filterMap_cons_none ha]
            · rfl
        | some b =>
            rw [List.filterMap_cons_some ha, List.filter_cons, List.filter_cons, hf a b ha, ih]
            split
            · rw [List.filterMap_cons_some ha]
            · rfl
  refine SortedBy.eq ?_ (sortBy_sorted _) ?_
  · apply List.Pairwise.filterMap f _ (sortBy_sorted l)
    intro a a' hle b hb b' hb'
    rw [hf a b hb, hf a' b' hb']
    exact hle
  · intro k
    rw [hcomm, withKey_sortBy, withKey_sortBy, hcomm]

/-! ## The first element from a key on -/

/-- The first element whose key is at least `k`, or the first one of all. -/
def firstFrom (key : α → κ) (k : κ) (l : List α) : Option α :=
  (l.find? fun a => k ≤ key a).or l.head?

theorem firstFrom_mem {k : κ} {l : List α} {a : α} (h : firstFrom key k l = some a) : a ∈ l := by
  rcases Option.or_eq_some_iff.mp h with hfind | ⟨_, hhead⟩
  · exact List.mem_of_find?_eq_some hfind
  · exact List.mem_of_head? hhead

theorem firstFrom_eq_none_iff {k : κ} {l : List α} : firstFrom key k l = none ↔ l = [] := by
  rw [firstFrom, Option.or_eq_none_iff, List.head?_eq_none_iff]
  constructor
  · intro h
    exact h.2
  · intro h
    subst h
    exact ⟨rfl, rfl⟩

/-- A map that keeps the keys and does not drop the first element from a key on. -/
theorem firstFrom_filterMap {key' : β → κ} {f : α → Option β}
    (hf : ∀ a b, f a = some b → key' b = key a) {k : κ} {l : List α} {a : α} {b : β}
    (h : firstFrom key k l = some a) (ha : f a = some b) :
    firstFrom key' k (l.filterMap f) = some b := by
  have hnone : ∀ l : List α, (∀ a ∈ l, ¬ k ≤ key a) →
      (l.filterMap f).find? (fun b => k ≤ key' b) = none := by
    intro l hall
    rw [List.find?_eq_none]
    intro b hb
    obtain ⟨a, ha, hab⟩ := List.mem_filterMap.mp hb
    rw [hf a b hab]
    simpa using hall a ha
  rcases Option.or_eq_some_iff.mp h with hfind | ⟨hfind, hhead⟩
  · obtain ⟨hka, before, after, rfl, hbefore⟩ := List.find?_eq_some_iff_append.mp hfind
    have hskip := hnone before fun c hc => by simpa using hbefore c hc
    have hkb : k ≤ key' b := by
      rw [hf a b ha]
      simpa using hka
    rw [firstFrom, List.filterMap_append, List.find?_append, hskip, List.filterMap_cons_some ha]
    simp [hkb]
  · obtain ⟨rest, rfl⟩ := List.head?_eq_some_iff.mp hhead
    have hall : ∀ c ∈ a :: rest, ¬ k ≤ key c := by
      intro c hc
      simpa using List.find?_eq_none.mp hfind c hc
    rw [firstFrom, hnone _ hall, List.filterMap_cons_some ha]
    rfl

end Sorting

/-!
# Counting sort

Items numbered from 0 on, with a key each, are counted by key and then placed one behind the other
at the places where their keys begin.
-/

section CountingSort

variable {α : Type*} (key : Nat → Nat)

/-- One counter for each key, raised once for each item. -/
def counts (n : Nat) : Nat → Nat :=
  (List.range n).foldl (fun c i => Function.update c (key i) (c (key i) + 1)) fun _ => 0

def place (item : Nat → α) (n : Nat) (start : Nat → Nat) (array : Nat → α) :
    (Nat → Nat) × (Nat → α) :=
  (List.range n).foldl (fun st i => (Function.update st.1 (key i) (st.1 (key i) + 1),
    Function.update st.2 (st.1 (key i)) (item i))) (start, array)

def below (n k : Nat) : Nat := (List.range n).countP fun i => key i < k

def rank (m k : Nat) : Nat := (List.range m).countP fun i => key i = k

/-- Where the item `i` of `n` belongs: items with the same key stay in order. -/
def slot (n i : Nat) : Nat := below key n (key i) + rank key i (key i)

theorem rank_succ (m k : Nat) :
    rank key (m + 1) k = rank key m k + if key m = k then 1 else 0 := by
  rw [rank, rank, List.range_succ, List.countP_append]
  simp [List.countP_cons]

theorem rank_mono {m m' : Nat} (h : m ≤ m') (k : Nat) : rank key m k ≤ rank key m' k := by
  induction m', h using Nat.le_induction with
  | base => exact le_rfl
  | succ m' _ ih =>
      rw [rank_succ]
      omega

theorem rank_lt {i m : Nat} (h : i < m) : rank key i (key i) < rank key m (key i) := by
  have hle := rank_mono key (Nat.succ_le_of_lt h) (key i)
  rw [Nat.succ_eq_add_one, rank_succ, if_pos rfl] at hle
  omega

theorem below_succ (n k : Nat) : below key n (k + 1) = below key n k + rank key n k := by
  rw [below, below, rank]
  induction List.range n with
  | nil => rfl
  | cons i l ih =>
      have hcase : key i < k + 1 ↔ key i < k ∨ key i = k := by omega
      rw [List.countP_cons, List.countP_cons, List.countP_cons, ih]
      by_cases hlt : key i < k
      · have hne : key i ≠ k := by omega
        simp [hlt, hne, hcase]
        omega
      · by_cases heq : key i = k
        · simp [heq]
          omega
        · simp [hlt, heq, hcase]

theorem below_mono (n : Nat) {k k' : Nat} (h : k ≤ k') : below key n k ≤ below key n k' :=
  List.countP_mono_left fun i _ hi => by
    rw [decide_eq_true_eq] at hi ⊢
    omega

theorem below_le (n k : Nat) : below key n k ≤ n := by
  simpa [below] using List.countP_le_length (p := fun i => decide (key i < k)) (l := List.range n)

theorem below_le_slot (n i : Nat) : below key n (key i) ≤ slot key n i := Nat.le_add_right _ _

variable {key} {n : Nat}

/-- The items of one key fill the places from its start to the start of the next key. -/
theorem slot_lt_below {i : Nat} (hi : i < n) : slot key n i < below key n (key i + 1) := by
  have hrank := rank_lt key hi
  rw [below_succ, slot]
  omega

theorem slot_lt {i : Nat} (hi : i < n) : slot key n i < n :=
  (slot_lt_below hi).trans_le (below_le key n _)

theorem slot_lt_slot {i j : Nat} (hi : i < n) (h : key i < key j ∨ key i = key j ∧ i < j) :
    slot key n i < slot key n j := by
  rcases h with hlt | ⟨heq, hij⟩
  · calc
      slot key n i < below key n (key i + 1) := slot_lt_below hi
      _ ≤ below key n (key j) := below_mono key n hlt
      _ ≤ slot key n j := below_le_slot key n j
  · have hrank := rank_lt key hij
    rw [slot, slot, ← heq]
    omega

theorem slot_inj {i j : Nat} (hi : i < n) (hj : j < n) (h : slot key n i = slot key n j) :
    i = j := by
  by_contra hne
  have hcases : (key i < key j ∨ key i = key j ∧ i < j) ∨
      key j < key i ∨ key j = key i ∧ j < i := by
    omega
  rcases hcases with hlt | hlt
  · exact absurd h (slot_lt_slot hi hlt).ne
  · exact absurd h (slot_lt_slot hj hlt).ne'

theorem perm_slots (key : Nat → Nat) (n : Nat) :
    ((List.range n).map (slot key n)).Perm (List.range n) := by
  have hnodup : ((List.range n).map (slot key n)).Nodup :=
    List.nodup_range.map_on fun i hi j hj h =>
      slot_inj (List.mem_range.mp hi) (List.mem_range.mp hj) h
  refine (List.subperm_of_subset hnodup fun p hp => ?_).perm_of_length_le (by simp)
  obtain ⟨i, hi, rfl⟩ := List.mem_map.mp hp
  exact List.mem_range.mpr (slot_lt (List.mem_range.mp hi))

theorem counts_eq (n k : Nat) : counts key n k = rank key n k := by
  induction n with
  | zero => rfl
  | succ n ih =>
      rw [counts, List.range_succ, List.foldl_append, List.foldl_cons, List.foldl_nil, ← counts,
        rank_succ, ← ih]
      by_cases hk : key n = k
      · subst hk
        simp
      · rw [Function.update_of_ne (Ne.symm hk), if_neg hk, Nat.add_zero]

/-- After `m` items, each key has moved on by its rank, and the items are in their slots. -/
theorem place_part {start : Nat → Nat} (hstart : ∀ i < n, start (key i) = below key n (key i))
    (item : Nat → α) (array : Nat → α) {m : Nat} (hm : m ≤ n) :
    (∀ k, (place key item m start array).1 k = start k + rank key m k) ∧
      ∀ i < m, (place key item m start array).2 (slot key n i) = item i := by
  induction m with
  | zero => exact ⟨fun k => rfl, fun i hi => absurd hi (Nat.not_lt_zero i)⟩
  | succ m ih =>
      obtain ⟨hnext, hitems⟩ := ih (Nat.le_of_succ_le hm)
      have hslot : (place key item m start array).1 (key m) = slot key n m := by
        rw [hnext, hstart m hm, slot]
      have hstep : place key item (m + 1) start array =
          (Function.update (place key item m start array).1 (key m) (slot key n m + 1),
            Function.update (place key item m start array).2 (slot key n m) (item m)) := by
        rw [place, List.range_succ, List.foldl_append, List.foldl_cons, List.foldl_nil, ← place,
          hslot]
      rw [hstep]
      constructor
      · intro k
        rw [rank_succ]
        by_cases hk : key m = k
        · subst hk
          have hself := hnext (key m)
          simp only [Function.update_self, if_true]
          omega
        · simpa [Function.update_of_ne (Ne.symm hk), hk] using hnext k
      · intro i hi
        by_cases him : i = m
        · simp [him]
        · have hne : slot key n i ≠ slot key n m := fun h =>
            him (slot_inj (by omega) (by omega) h)
          exact (Function.update_of_ne hne ..).trans (hitems i (by omega))

theorem place_slot {start : Nat → Nat} (hstart : ∀ i < n, start (key i) = below key n (key i))
    (item : Nat → α) (array : Nat → α) {i : Nat} (hi : i < n) :
    (place key item n start array).2 (slot key n i) = item i :=
  (place_part hstart item array le_rfl).2 i hi

theorem place_perm {start : Nat → Nat} (hstart : ∀ i < n, start (key i) = below key n (key i))
    (item : Nat → α) (array : Nat → α) :
    ((List.range n).map (place key item n start array).2).Perm ((List.range n).map item) := by
  have hslots := (perm_slots key n).map (place key item n start array).2
  have hitems : (List.range n).map ((place key item n start array).2 ∘ slot key n) =
      (List.range n).map item :=
    List.map_congr_left fun i hi => place_slot hstart item array (List.mem_range.mp hi)
  rw [List.map_map, hitems] at hslots
  exact hslots.symm

end CountingSort

end MiniBackend.Lib.StableSort
