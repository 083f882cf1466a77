import Mathlib.Data.Finset.Card
import Mathlib.Data.List.Nodup
import Mathlib.Data.Nat.ModEq
import Mathlib.Logic.Function.Basic

/-!
# Windows of recent entries

An array of `window` slots that is written round and round has the last `window` entries of
everything that was written.  When only entries that are not among these are written, `window`
distinct values are enough to tell that nothing was written twice.  What is counted among the
last entries of a sorted history is what is counted in all of it, up to `window`.
-/

namespace MiniBackend.Lib.RecentWindow

variable {α : Type*}

def recent (window : Nat) (history : List α) : List α :=
  history.drop (history.length - window)

theorem mem_of_mem_recent {window : Nat} {history : List α} {a : α}
    (h : a ∈ recent window history) : a ∈ history :=
  List.mem_of_mem_drop h

theorem split_append_singleton {l : List α} {a : α} {P : List α → α → Prop}
    (hold : ∀ earlier b later, l = earlier ++ b :: later → P earlier b) (hnew : P l a) :
    ∀ earlier b later, l ++ [a] = earlier ++ b :: later → P earlier b := by
  intro earlier b later hsplit
  rcases List.eq_nil_or_concat later with hnil | ⟨rest, last, hlast⟩
  · rw [hnil] at hsplit
    obtain ⟨hl, ha⟩ := List.append_inj' hsplit rfl
    rw [← hl, ← List.singleton_inj.mp ha]
    exact hnew
  · rw [hlast, List.concat_eq_append, ← List.cons_append, ← List.append_assoc] at hsplit
    exact hold earlier b rest (List.append_inj' hsplit rfl).1

theorem mem_recent {window : Nat} {history : List α} {a : α} :
    a ∈ recent window history ↔
      ∃ k, history.length ≤ k + window ∧ history[k]? = some a := by
  rw [recent, List.mem_iff_getElem?]
  constructor
  · intro h
    obtain ⟨i, hi⟩ := h
    rw [List.getElem?_drop] at hi
    exact ⟨_, by omega, hi⟩
  · intro h
    obtain ⟨k, hk, hget⟩ := h
    refine ⟨k - (history.length - window), ?_⟩
    rw [List.getElem?_drop, Nat.add_sub_cancel' (by omega)]
    exact hget

/-! ## The array -/

/-- The array, the next slot and whether there was a wrap, after `history` was written. -/
structure Holds (window : Nat) (history : List α) (entries : Nat → α) (pos : Nat)
    (filled : Bool) : Prop where
  pos_eq : pos = history.length % window
  filled_iff : filled = true ↔ window ≤ history.length
  entry : ∀ k < history.length, history.length ≤ k + window →
    history[k]? = some (entries (k % window))

theorem holds_nil {window : Nat} (hwindow : 0 < window) (entries : Nat → α) :
    Holds window [] entries 0 false where
  pos_eq := (Nat.zero_mod window).symm
  filled_iff := by
    rw [List.length_nil]
    exact ⟨fun h => absurd h Bool.false_ne_true, fun h => absurd hwindow (Nat.not_lt.mpr h)⟩
  entry k hk := absurd hk (Nat.not_lt_zero k)

theorem mod_ne_of_lt {window k n : Nat} (hk : k < n) (hn : n < k + window) :
    k % window ≠ n % window := by
  intro heq
  have hdvd : window ∣ n - k := (Nat.modEq_iff_dvd' hk.le).mp heq
  have hle := Nat.le_of_dvd (by omega) hdvd
  omega

theorem Holds.write {window : Nat} {history : List α} {entries : Nat → α} {pos : Nat}
    {filled : Bool} (h : Holds window history entries pos filled) (hwindow : 0 < window)
    (a : α) :
    Holds window (history ++ [a]) (Function.update entries pos a)
      (if window ≤ pos + 1 then 0 else pos + 1) (if window ≤ pos + 1 then true else filled) where
  pos_eq := by
    have hpos := h.pos_eq
    have hlt := Nat.mod_lt history.length hwindow
    rw [List.length_append, List.length_singleton, Nat.add_mod, ← hpos]
    split
    · have hlast : pos + 1 = window := by omega
      rcases Nat.lt_or_ge 1 window with hone | hone
      · rw [Nat.mod_eq_of_lt hone, hlast, Nat.mod_self]
      · rw [show window = 1 by omega, Nat.mod_one]
    · rw [Nat.mod_eq_of_lt (show 1 < window by omega), Nat.mod_eq_of_lt (by omega)]
  filled_iff := by
    have hpos := h.pos_eq
    have hle := Nat.mod_le history.length window
    have hlt := Nat.mod_lt history.length hwindow
    rw [List.length_append, List.length_singleton]
    split
    · exact ⟨fun _ => by omega, fun _ => rfl⟩
    · rw [h.filled_iff]
      constructor
      · exact Nat.le_succ_of_le
      · intro hfull
        by_contra hnot
        have hsmall : history.length % window = history.length := Nat.mod_eq_of_lt (by omega)
        omega
  entry k hk hrecent := by
    rw [List.length_append, List.length_singleton] at hk hrecent
    rcases Nat.lt_succ_iff_lt_or_eq.mp hk with hold | hnew
    · rw [List.getElem?_append_left hold, h.entry k hold (by omega), Function.update_of_ne]
      rw [h.pos_eq]
      exact mod_ne_of_lt hold (by omega)
    · rw [hnew, List.getElem?_concat_length, ← h.pos_eq, Function.update_self]

theorem Holds.mem_iff {window : Nat} {history : List α} {entries : Nat → α} {pos : Nat}
    {filled : Bool} (h : Holds window history entries pos filled) (hwindow : 0 < window)
    {a : α} :
    (∃ i < (if filled then window else pos), entries i = a) ↔ a ∈ recent window history := by
  rw [mem_recent]
  constructor
  · intro hfound
    obtain ⟨i, hi, hentry⟩ := hfound
    -- the last place that is written to the slot
    have hplace : ∃ k < history.length, history.length ≤ k + window ∧ k % window = i := by
      split at hi
      next hfull =>
        have hlength := h.filled_iff.mp hfull
        have hmod := Nat.mod_lt history.length hwindow
        have hdiv := Nat.div_add_mod history.length window
        rcases Nat.lt_or_ge i (history.length % window) with hbefore | hbehind
        · refine ⟨window * (history.length / window) + i, by omega, by omega, ?_⟩
          rw [Nat.mul_add_mod, Nat.mod_eq_of_lt hi]
        · have hpos : 0 < history.length / window := Nat.div_pos hlength hwindow
          have hprev : window * (history.length / window - 1) + window =
              window * (history.length / window) := by
            rw [Nat.mul_sub, Nat.mul_one, Nat.sub_add_cancel (Nat.le_mul_of_pos_right _ hpos)]
          refine ⟨window * (history.length / window - 1) + i, by omega, by omega, ?_⟩
          rw [Nat.mul_add_mod, Nat.mod_eq_of_lt hi]
      next hfull =>
        have hshort : history.length < window :=
          Nat.lt_of_not_le fun hle => hfull (h.filled_iff.mpr hle)
        rw [h.pos_eq, Nat.mod_eq_of_lt hshort] at hi
        exact ⟨i, hi, by omega, Nat.mod_eq_of_lt (by omega)⟩
    obtain ⟨k, hk, hrecent, hslot⟩ := hplace
    refine ⟨k, hrecent, ?_⟩
    rw [h.entry k hk hrecent, hslot, hentry]
  · intro hrecent
    obtain ⟨k, hlast, hget⟩ := hrecent
    have hk := (List.getElem?_eq_some_iff.mp hget).1
    refine ⟨k % window, ?_, ?_⟩
    · split
      · exact Nat.mod_lt k hwindow
      next hfull =>
        have hshort : history.length < window :=
          Nat.lt_of_not_le fun hle => hfull (h.filled_iff.mpr hle)
        rw [h.pos_eq, Nat.mod_eq_of_lt hshort, Nat.mod_eq_of_lt (by omega)]
        exact hk
    · rw [h.entry k hk hlast] at hget
      exact Option.some.inj hget

theorem Holds.filled_eq {window : Nat} {history : List α} {entries : Nat → α} {pos : Nat}
    {filled : Bool} (h : Holds window history entries pos filled) :
    filled = decide (window ≤ history.length) := by
  rw [Bool.eq_iff_iff, decide_eq_true_iff]
  exact h.filled_iff

theorem Holds.map_range {window : Nat} {history : List α} {entries : Nat → α} {pos : Nat}
    {filled : Bool} (h : Holds window history entries pos filled)
    (hshort : history.length ≤ window) :
    (List.range history.length).map entries = history := by
  apply List.ext_getElem?
  intro k
  rw [List.getElem?_map]
  rcases Nat.lt_or_ge k history.length with hk | hk
  · rw [List.getElem?_range hk, Option.map_some, h.entry k hk (by omega),
      Nat.mod_eq_of_lt (by omega)]
  · rw [List.getElem?_eq_none (by simpa using hk), List.getElem?_eq_none hk, Option.map_none]

/-- Behind the wrap, a walk from the newest entry backwards reads the last `window` ones. -/
theorem Holds.map_backwards {window : Nat} {history : List α} {entries : Nat → α} {pos : Nat}
    {filled : Bool} (h : Holds window history entries pos filled)
    (hfull : window ≤ history.length) :
    (List.range window).map (fun i => entries ((pos + window - 1 - i) % window)) =
      history.reverse.take window := by
  apply List.ext_getElem?
  intro i
  rw [List.getElem?_map]
  rcases Nat.lt_or_ge i window with hi | hi
  · have hslot : (pos + window - 1 - i) % window = (history.length - 1 - i) % window := by
      rw [h.pos_eq, Nat.add_sub_assoc (by omega), Nat.add_sub_assoc (by omega), Nat.mod_add_mod,
        show history.length + (window - 1 - i) = history.length - 1 - i + window by omega,
        Nat.add_mod_right]
    rw [List.getElem?_range hi, Option.map_some, List.getElem?_take_of_lt hi,
      List.getElem?_reverse (by omega), h.entry _ (by omega) (by omega), hslot]
  · rw [List.getElem?_eq_none (by simpa using hi), Option.map_none, List.getElem?_eq_none]
    rw [List.length_take]
    omega

/-- Where the entries that meet `p` come first, the first `n` entries have `n` of them or all. -/
theorem countP_take_of_pairwise {p : α → Bool} {l : List α}
    (h : l.Pairwise fun a b => p b = true → p a = true) (n : Nat) :
    (l.take n).countP p = min n (l.countP p) := by
  induction l generalizing n with
  | nil => simp
  | cons a l ih =>
      rw [List.pairwise_cons] at h
      cases n with
      | zero => simp
      | succ n =>
          rw [List.take_succ_cons]
          by_cases ha : p a = true
          · rw [List.countP_cons_of_pos ha, List.countP_cons_of_pos ha, ih h.2]
            omega
          · have hnone : l.countP p = 0 :=
              List.countP_eq_zero.mpr fun b hb hpb => ha (h.1 b hb hpb)
            rw [List.countP_cons_of_neg ha, List.countP_cons_of_neg ha, ih h.2, hnone]
            omega

/-! ## Distances -/

def Spaced (window : Nat) (l : List α) : Prop :=
  ∀ i j, i < j → j ≤ i + window → ∀ a ∈ l[i]?, l[j]? ≠ some a

theorem spaced_nil (window : Nat) : Spaced window ([] : List α) :=
  fun _ _ _ _ _ ha => absurd ha (by simp)

theorem Spaced.append_singleton {window : Nat} {l : List α} (h : Spaced window l) {a : α}
    (ha : a ∉ recent window l) : Spaced window (l ++ [a]) := by
  intro i j hij hclose b hb hsame
  have hj := (List.getElem?_eq_some_iff.mp hsame).1
  rw [List.length_append, List.length_singleton] at hj
  rw [Option.mem_def, List.getElem?_append_left (by omega)] at hb
  rcases Nat.lt_succ_iff_lt_or_eq.mp hj with hold | hlast
  · rw [List.getElem?_append_left hold] at hsame
    exact h i j hij hclose b hb hsame
  · rw [hlast, List.getElem?_concat_length, Option.some.injEq] at hsame
    apply ha
    rw [mem_recent, hsame]
    exact ⟨i, by omega, hb⟩

theorem Spaced.right {window : Nat} {l l' : List α} (h : Spaced window (l ++ l')) :
    Spaced window l' := by
  intro i j hij hclose a ha
  have hshift := h (l.length + i) (l.length + j) (by omega) (by omega) a
  rw [List.getElem?_append_right (Nat.le_add_right _ _),
    List.getElem?_append_right (Nat.le_add_right _ _), Nat.add_sub_cancel_left,
    Nat.add_sub_cancel_left] at hshift
  exact hshift ha

theorem Spaced.nodup_of_length_le {window : Nat} {l : List α} (h : Spaced window l)
    (hlength : l.length ≤ window + 1) : l.Nodup := by
  rw [List.Nodup, List.pairwise_iff_getElem]
  intro i j hi hj hij hsame
  apply h i j hij (by omega) l[i] (List.getElem?_eq_getElem hi)
  rw [List.getElem?_eq_getElem hj, hsame]

theorem Spaced.take {window : Nat} {l : List α} (h : Spaced window l) (n : Nat) :
    Spaced window (l.take n) := by
  intro i j hij hclose a ha hsame
  have hj := (List.getElem?_eq_some_iff.mp hsame).1
  rw [List.length_take] at hj
  rw [Option.mem_def, List.getElem?_take_of_lt (by omega)] at ha
  rw [List.getElem?_take_of_lt (by omega)] at hsame
  exact h i j hij hclose a ha hsame

theorem Spaced.nodup [DecidableEq α] {window : Nat} {l : List α} (h : Spaced window l)
    (hfew : l.toFinset.card ≤ window) : l.Nodup := by
  have hfront : (l.take (window + 1)).Nodup := by
    apply (h.take (window + 1)).nodup_of_length_le
    rw [List.length_take]
    exact Nat.min_le_left _ _
  have hcard : (l.take (window + 1)).length ≤ window := by
    calc (l.take (window + 1)).length
        = (l.take (window + 1)).toFinset.card := (List.toFinset_card_of_nodup hfront).symm
      _ ≤ l.toFinset.card := by
          apply Finset.card_le_card
          intro a ha
          rw [List.mem_toFinset] at ha ⊢
          exact List.mem_of_mem_take ha
      _ ≤ window := hfew
  rw [List.length_take] at hcard
  exact h.nodup_of_length_le (by omega)

end MiniBackend.Lib.RecentWindow
