import MiniBackend.Lib.CArray
import Mathlib.Data.List.MinMax

/-!
# The first maximum of a scan

A scan over a list that keeps the entry with the highest score, and among equal ones the first.
The entry that is kept stays the first maximum when others are taken away or left out.
-/

namespace MiniBackend.Lib.FirstMaximum

open MiniBackend.Lib.CArray

variable {α β : Type*} [LinearOrder β] {f : α → β} {p : α → Bool}

theorem argmax_eq_some_iff_split {l : List α} {x : α} :
    l.argmax f = some x ↔ ∃ front back, l = front ++ x :: back ∧ (∀ y ∈ front, f y < f x) ∧
      ∀ y ∈ back, f y ≤ f x := by
  constructor
  · intro hmax
    induction l generalizing x with
    | nil => cases hmax
    | cons a l ih =>
        rw [List.argmax_cons] at hmax
        cases hrest : l.argmax f with
        | none =>
            rw [hrest] at hmax
            have hnil := List.argmax_eq_none.mp hrest
            exact ⟨[], l, by rw [Option.some.inj hmax]; rfl, by simp, by simp [hnil]⟩
        | some c =>
            rw [hrest] at hmax
            dsimp only at hmax
            obtain ⟨front, back, hsplit, hfront, hback⟩ := ih hrest
            split at hmax
            · rename_i hlower
              cases hmax
              refine ⟨a :: front, back, by rw [hsplit]; rfl, ?_, hback⟩
              rintro y (_ | ⟨_, hy⟩)
              · exact hlower
              · exact hfront y hy
            · rename_i hhigher
              cases hmax
              refine ⟨[], l, rfl, by simp, ?_⟩
              intro y hy
              exact (List.le_of_mem_argmax hy hrest).trans (not_lt.mp hhigher)
  · rintro ⟨front, back, rfl, hfront, hback⟩
    induction front with
    | nil =>
        rw [List.nil_append, List.argmax_cons]
        cases hrest : back.argmax f with
        | none => rfl
        | some c => exact if_neg (not_lt.mpr (hback c (List.argmax_mem hrest)))
    | cons a front ih =>
        have hrest := ih fun y hy => hfront y (List.mem_cons_of_mem a hy)
        rw [List.cons_append, List.argmax_cons, hrest]
        exact if_pos (hfront a List.mem_cons_self)

theorem argmax_filter_eq_some_iff {l : List α} {x : α} :
    (l.filter p).argmax f = some x ↔ ∃ front back, l = front ++ x :: back ∧ p x = true ∧
      (∀ y ∈ front, p y = true → f y < f x) ∧ ∀ y ∈ back, p y = true → f y ≤ f x := by
  rw [argmax_eq_some_iff_split]
  constructor
  · rintro ⟨front, back, hsplit, hfront, hback⟩
    obtain ⟨before, rest, rfl, rfl, hrest⟩ := List.filter_eq_append_iff.mp hsplit
    obtain ⟨dropped, behind, rfl, hdropped, hx, rfl⟩ := List.filter_eq_cons_iff.mp hrest
    refine ⟨before ++ dropped, behind, by rw [List.append_assoc], hx, ?_, ?_⟩
    · intro y hy hconsidered
      rcases List.mem_append.mp hy with hy | hy
      · exact hfront y (List.mem_filter.mpr ⟨hy, hconsidered⟩)
      · exact absurd hconsidered (hdropped y hy)
    · intro y hy hconsidered
      exact hback y (List.mem_filter.mpr ⟨hy, hconsidered⟩)
  · rintro ⟨front, back, rfl, hx, hfront, hback⟩
    refine ⟨front.filter p, back.filter p, ?_, ?_, ?_⟩
    · rw [List.filter_append, List.filter_cons_of_pos hx]
    · intro y hy
      exact hfront y (List.mem_filter.mp hy).1 (List.mem_filter.mp hy).2
    · intro y hy
      exact hback y (List.mem_filter.mp hy).1 (List.mem_filter.mp hy).2

theorem argmax_filter_eq_none_iff {l : List α} :
    (l.filter p).argmax f = none ↔ ∀ y ∈ l, p y = false := by
  rw [List.argmax_eq_none, List.filter_eq_nil_iff]
  simp

theorem argmax_filter_concat (l : List α) (a : α) :
    ((l ++ [a]).filter p).argmax f =
      if p a = true then ((l.filter p).argmax f).elim (some a) fun best =>
        if f best < f a then some a else some best
      else (l.filter p).argmax f := by
  rw [List.filter_append]
  split
  · rename_i hconsidered
    rw [List.filter_cons_of_pos hconsidered, List.filter_nil, List.argmax_concat]
    cases (l.filter p).argmax f <;> rfl
  · rename_i hskipped
    rw [List.filter_cons_of_neg hskipped, List.filter_nil, List.append_nil]

theorem argmax_filter_concat_of_some {l : List α} {x : α} (a : α)
    (hmax : (l.filter p).argmax f = some x) :
    ((l ++ [a]).filter p).argmax f = some x ∨ ((l ++ [a]).filter p).argmax f = some a := by
  rw [argmax_filter_concat, hmax]
  split
  · rw [Option.elim_some]
    split
    · exact Or.inr rfl
    · exact Or.inl rfl
  · exact Or.inl rfl

theorem split_cases {front back : List α} {x y : α} {i : Nat}
    (hget : (front ++ x :: back)[i]? = some y) :
    (i < front.length ∧ y ∈ front) ∨ (i = front.length ∧ y = x) ∨
      (front.length < i ∧ y ∈ back) := by
  rcases Nat.lt_trichotomy i front.length with hlt | heq | hgt
  · rw [List.getElem?_append_left hlt] at hget
    exact Or.inl ⟨hlt, List.mem_of_getElem? hget⟩
  · rw [heq, List.getElem?_append_right le_rfl, Nat.sub_self, List.getElem?_cons_zero] at hget
    exact Or.inr (Or.inl ⟨heq, (Option.some.inj hget).symm⟩)
  · obtain ⟨k, rfl⟩ := Nat.exists_eq_add_of_lt hgt
    rw [List.getElem?_append_right (by omega), Nat.add_assoc, Nat.add_sub_cancel_left,
      List.getElem?_cons_succ] at hget
    exact Or.inr (Or.inr ⟨hgt, List.mem_of_getElem? hget⟩)

/-- The first maximum is a good entry exactly when, for each other one that is considered, there
is a good entry that is higher, or as high and in front of it. -/
theorem argmax_good_iff {l : List α} {good : α → Prop} (hgood : ∀ x, good x → p x = true) :
    (∀ x, (l.filter p).argmax f = some x → good x) ↔
      ∀ (i : Nat) (x : α), l[i]? = some x → p x = true → ¬good x →
        ∃ (j : Nat) (y : α), l[j]? = some y ∧ good y ∧ (f x < f y ∨ f y = f x ∧ j < i) := by
  constructor
  · intro hmax i x hget hx hbad
    cases hbest : (l.filter p).argmax f with
    | none =>
        have hskipped := argmax_filter_eq_none_iff.mp hbest x (List.mem_of_getElem? hget)
        rw [hx] at hskipped
        cases hskipped
    | some best =>
        have hbestGood := hmax best hbest
        obtain ⟨front, back, rfl, -, hfront, hback⟩ := argmax_filter_eq_some_iff.mp hbest
        refine ⟨front.length, best, ?_, hbestGood, ?_⟩
        · rw [List.getElem?_append_right le_rfl, Nat.sub_self, List.getElem?_cons_zero]
        · rcases split_cases hget with ⟨hi, hmem⟩ | ⟨hi, rfl⟩ | ⟨hi, hmem⟩
          · exact Or.inl (hfront x hmem hx)
          · exact absurd hbestGood hbad
          · exact (hback x hmem hx).lt_or_eq.imp id fun heq => ⟨heq.symm, hi⟩
  · intro hlead x hmax
    by_contra hbad
    obtain ⟨front, back, rfl, hx, hfront, hback⟩ := argmax_filter_eq_some_iff.mp hmax
    have hget : (front ++ x :: back)[front.length]? = some x := by
      rw [List.getElem?_append_right le_rfl, Nat.sub_self, List.getElem?_cons_zero]
    obtain ⟨j, y, hother, hy, hahead⟩ := hlead front.length x hget hx hbad
    rcases split_cases hother with ⟨hj, hmem⟩ | ⟨hj, rfl⟩ | ⟨hj, hmem⟩
    · have hlower := hfront y hmem (hgood y hy)
      rcases hahead with hlt | ⟨heq, -⟩
      · exact absurd hlower (not_lt_of_gt hlt)
      · exact absurd heq hlower.ne
    · exact hbad hy
    · have hle := hback y hmem (hgood y hy)
      rcases hahead with hlt | ⟨-, hlt⟩
      · exact absurd hle (not_le_of_gt hlt)
      · exact absurd hj (not_lt_of_gt hlt)

/-! ## Others that leave -/

section Others

variable {q : α → Bool} {l : List α} {x : α}

theorem argmax_filter_eraseP (hmax : (l.filter p).argmax f = some x) (hother : l.find? q ≠ some x) :
    ((l.eraseP q).filter p).argmax f = some x := by
  rw [argmax_filter_eq_some_iff] at hmax ⊢
  obtain ⟨front, back, rfl, hx, hfront, hback⟩ := hmax
  rw [List.eraseP_append]
  split
  · refine ⟨front.eraseP q, back, rfl, hx, ?_, hback⟩
    exact fun y hy => hfront y (List.mem_of_mem_eraseP hy)
  · rename_i hbehind
    have hqx : q x = false := by
      rw [Bool.eq_false_iff]
      intro hqx
      apply hother
      rw [List.find?_append, List.find?_eq_none.mpr (by simpa using hbehind), Option.none_or,
        List.find?_cons_of_pos hqx]
    rw [List.eraseP_cons_of_neg (by simp [hqx])]
    refine ⟨front, back.eraseP q, rfl, hx, hfront, ?_⟩
    exact fun y hy => hback y (List.mem_of_mem_eraseP hy)

theorem argmax_filter_map {g : α → α} (hmax : (l.filter p).argmax f = some x) (hx : g x = x)
    (hothers : ∀ y ∈ l, g y = y ∨ p (g y) = false) :
    ((l.map g).filter p).argmax f = some x := by
  rw [argmax_filter_eq_some_iff] at hmax ⊢
  obtain ⟨front, back, rfl, hconsidered, hfront, hback⟩ := hmax
  refine ⟨front.map g, back.map g, by rw [List.map_append, List.map_cons, hx], hconsidered, ?_, ?_⟩
  · intro y hy hy'
    obtain ⟨a, ha, rfl⟩ := List.mem_map.mp hy
    have hkept := (hothers a (List.mem_append_left _ ha)).resolve_right (by simp [hy'])
    rw [hkept] at hy' ⊢
    exact hfront a ha hy'
  · intro y hy hy'
    obtain ⟨a, ha, rfl⟩ := List.mem_map.mp hy
    have hkept := (hothers a (List.mem_append_right _ (List.mem_cons_of_mem x ha))).resolve_right
      (by simp [hy'])
    rw [hkept] at hy' ⊢
    exact hback a ha hy'

theorem argmax_filter_updateFirst {g : α → α} (hmax : (l.filter p).argmax f = some x)
    (hother : l.find? q ≠ some x) (hout : ∀ y, p (g y) = false) :
    ((updateFirst q g l).filter p).argmax f = some x := by
  rw [argmax_filter_eq_some_iff] at hmax ⊢
  obtain ⟨front, back, rfl, hx, hfront, hback⟩ := hmax
  have hchanged {part : List α} {y : α} (hy : y ∈ updateFirst q g part) (hconsidered : p y = true) :
      y ∈ part := by
    rcases mem_updateFirst hy with hold | ⟨a, -, -, rfl⟩
    · exact hold
    · rw [hout a] at hconsidered
      cases hconsidered
  by_cases hfound : ∀ y ∈ front, q y = false
  · have hqx : q x = false := by
      rw [Bool.eq_false_iff]
      intro hqx
      apply hother
      rw [List.find?_append, List.find?_eq_none.mpr (by simpa using hfound), Option.none_or,
        List.find?_cons_of_pos hqx]
    refine ⟨front, updateFirst q g back, ?_, hx, hfront, fun y hy h => hback y (hchanged hy h) h⟩
    rw [updateFirst_append_of_forall_not g _ hfound, updateFirst, if_neg (by simp [hqx])]
  · refine ⟨updateFirst q g front, back, ?_, hx, fun y hy h => hfront y (hchanged hy h) h, hback⟩
    rw [updateFirst_append_of_exists g (by simpa using hfound)]

end Others

end MiniBackend.Lib.FirstMaximum
