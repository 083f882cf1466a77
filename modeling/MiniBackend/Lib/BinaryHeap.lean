import Mathlib.Logic.Equiv.Basic
import Mathlib.Data.List.Perm.Basic
import Mathlib.Data.List.Nodup
import Mathlib.Order.Lattice

/-!
# Binary heaps in arrays

A heap is an array of which the first `size` entries count; the children of entry `i`
are at `2 * i + 1` and `2 * i + 2`.  Both sifts work by swapping entries, so what they
need and keep is an order with one exception, at the entry that is out of place.
-/

namespace MiniBackend.Lib.BinaryHeap

variable {α β : Type*} [LinearOrder β] (key : α → β)

def parent (i : Nat) : Nat := (i - 1) / 2

def swap (heap : Nat → α) (i j : Nat) : Nat → α := fun k => heap (Equiv.swap i j k)

def siftUp : Nat → (Nat → α) → Nat → (Nat → α)
  | 0, heap, _ => heap
  | fuel + 1, heap, idx =>
      if 0 < idx then
        if key (heap (parent idx)) ≤ key (heap idx) then heap
        else siftUp fuel (swap heap idx (parent idx)) (parent idx)
      else heap

def smallest (heap : Nat → α) (idx size : Nat) : Nat :=
  let best := if 2 * idx + 1 < size ∧ key (heap (2 * idx + 1)) < key (heap idx) then
    2 * idx + 1 else idx
  if 2 * idx + 2 < size ∧ key (heap (2 * idx + 2)) < key (heap best) then 2 * idx + 2 else best

/-- Move entry `idx` down until no child is smaller.  Each step goes to a larger index
below `size`, so `size` steps are enough. -/
def siftDown : Nat → (Nat → α) → Nat → Nat → (Nat → α)
  | 0, heap, _, _ => heap
  | fuel + 1, heap, idx, size =>
      if smallest key heap idx size = idx then heap
      else siftDown fuel (swap heap idx (smallest key heap idx size))
        (smallest key heap idx size) size

def contents (heap : Nat → α) (size : Nat) : List α := (List.range size).map heap

/-! ## Order -/

def HeapOrder (heap : Nat → α) (size : Nat) : Prop :=
  ∀ i, 0 < i → i < size → key (heap (parent i)) ≤ key (heap i)

/-- Entry `hole` may be smaller than its parent; nothing else is out of order. -/
structure UpOrder (heap : Nat → α) (size hole : Nat) : Prop where
  except : ∀ i, 0 < i → i < size → i ≠ hole → key (heap (parent i)) ≤ key (heap i)
  grand : 0 < hole → ∀ c, 0 < c → c < size → parent c = hole →
    key (heap (parent hole)) ≤ key (heap c)

/-- Entry `hole` may be larger than its children; nothing else is out of order. -/
structure DownOrder (heap : Nat → α) (size hole : Nat) : Prop where
  except : ∀ i, 0 < i → i < size → parent i ≠ hole → key (heap (parent i)) ≤ key (heap i)
  grand : 0 < hole → ∀ c, 0 < c → c < size → parent c = hole →
    key (heap (parent hole)) ≤ key (heap c)

variable {key} {heap : Nat → α} {size hole : Nat}

theorem parent_lt {i : Nat} (h : 0 < i) : parent i < i := by
  unfold parent
  omega

theorem parent_eq_iff {c p : Nat} (hc : 0 < c) : parent c = p ↔ c = 2 * p + 1 ∨ c = 2 * p + 2 := by
  unfold parent
  omega

theorem swap_left (heap : Nat → α) (i j : Nat) : swap heap i j i = heap j := by
  rw [swap, Equiv.swap_apply_left]

theorem swap_right (heap : Nat → α) (i j : Nat) : swap heap i j j = heap i := by
  rw [swap, Equiv.swap_apply_right]

theorem swap_other (heap : Nat → α) {i j k : Nat} (hi : k ≠ i) (hj : k ≠ j) :
    swap heap i j k = heap k := by
  rw [swap, Equiv.swap_apply_of_ne_of_ne hi hj]

theorem HeapOrder.root_le (h : HeapOrder key heap size) {i : Nat} (hi : i < size) :
    key (heap 0) ≤ key (heap i) := by
  induction i using Nat.strongRecOn with
  | ind i ih =>
      by_cases h0 : i = 0
      · rw [h0]
      · have hpos : 0 < i := by omega
        have hlt := parent_lt hpos
        exact (ih (parent i) hlt (by omega)).trans (h i hpos hi)

theorem HeapOrder.downOrder (h : HeapOrder key heap size) (hole : Nat) :
    DownOrder key heap size hole where
  except i h0 hi _ := h i h0 hi
  grand hpos c h0 hc hparent := by
    have hlt := parent_lt h0
    have hup := h hole hpos (by omega)
    have hdown := h c h0 hc
    rw [hparent] at hdown
    exact hup.trans hdown

/-- The step of `siftUp`: the larger parent comes down. -/
theorem UpOrder.swap (h : UpOrder key heap size hole) (hpos : 0 < hole) (hhole : hole < size)
    (hlt : key (heap hole) < key (heap (parent hole))) :
    UpOrder key (swap heap hole (parent hole)) size (parent hole) := by
  have hp := parent_lt hpos
  constructor
  · intro i h0 hi hne
    by_cases hih : i = hole
    · rw [hih, swap_left, swap_right]
      exact hlt.le
    · rw [swap_other heap hih hne]
      by_cases hpi : parent i = hole
      · rw [hpi, swap_left]
        exact h.grand hpos i h0 hi hpi
      · by_cases hpp : parent i = parent hole
        · -- the sibling of the hole
          rw [hpp, swap_right]
          have hsib := h.except i h0 hi hih
          rw [hpp] at hsib
          exact hlt.le.trans hsib
        · rw [swap_other heap hpi hpp]
          exact h.except i h0 hi hih
  · intro hpos' c h0 hc hparent
    have hpp := parent_lt hpos'
    rw [swap_other heap (by omega) (by omega)]
    have hup := h.except (parent hole) hpos' (by omega) (by omega)
    by_cases hch : c = hole
    · rw [hch, swap_left]
      exact hup
    · have hcp : c ≠ parent hole := by
        have := parent_lt h0
        omega
      rw [swap_other heap hch hcp]
      have hsib := h.except c h0 hc hch
      rw [hparent] at hsib
      exact hup.trans hsib

theorem UpOrder.heapOrder (h : UpOrder key heap size hole)
    (hhole : 0 < hole → key (heap (parent hole)) ≤ key (heap hole)) :
    HeapOrder key heap size := by
  intro i h0 hi
  by_cases hih : i = hole
  · rw [hih] at h0 ⊢
    exact hhole h0
  · exact h.except i h0 hi hih

theorem siftUp_heapOrder {fuel : Nat} (h : UpOrder key heap size hole) (hhole : hole < size)
    (hfuel : hole ≤ fuel) : HeapOrder key (siftUp key fuel heap hole) size := by
  induction fuel generalizing heap hole with
  | zero => exact h.heapOrder fun hpos => by omega
  | succ fuel ih =>
      unfold siftUp
      split
      · next hpos =>
          have hp := parent_lt hpos
          split
          · next hle => exact h.heapOrder fun _ => hle
          · next hlt => exact ih (h.swap hpos hhole (not_le.mp hlt)) (by omega) (by omega)
      · next hzero => exact h.heapOrder fun hpos => absurd hpos hzero

/-- What the choice between an entry and its children returns. -/
theorem smallest_spec (key : α → β) (heap : Nat → α) (idx size : Nat) :
    (smallest key heap idx size = idx ∨
        (smallest key heap idx size < size ∧ 0 < smallest key heap idx size ∧
          parent (smallest key heap idx size) = idx ∧
          key (heap (smallest key heap idx size)) < key (heap idx))) ∧
      ∀ c, 0 < c → c < size → parent c = idx →
        key (heap (smallest key heap idx size)) ≤ key (heap c) := by
  have hleft : parent (2 * idx + 1) = idx := by unfold parent; omega
  have hright : parent (2 * idx + 2) = idx := by unfold parent; omega
  unfold smallest
  dsimp only
  by_cases h1 : 2 * idx + 1 < size ∧ key (heap (2 * idx + 1)) < key (heap idx)
  · rw [if_pos h1]
    by_cases h2 : 2 * idx + 2 < size ∧ key (heap (2 * idx + 2)) < key (heap (2 * idx + 1))
    · rw [if_pos h2]
      refine ⟨.inr ⟨h2.1, by omega, hright, h2.2.trans h1.2⟩, fun c h0 hc hparent => ?_⟩
      rcases (parent_eq_iff h0).mp hparent with rfl | rfl
      · exact h2.2.le
      · exact le_refl _
    · rw [if_neg h2]
      refine ⟨.inr ⟨h1.1, by omega, hleft, h1.2⟩, fun c h0 hc hparent => ?_⟩
      rcases (parent_eq_iff h0).mp hparent with rfl | rfl
      · exact le_refl _
      · exact not_lt.mp fun hlt => h2 ⟨hc, hlt⟩
  · rw [if_neg h1]
    by_cases h2 : 2 * idx + 2 < size ∧ key (heap (2 * idx + 2)) < key (heap idx)
    · rw [if_pos h2]
      refine ⟨.inr ⟨h2.1, by omega, hright, h2.2⟩, fun c h0 hc hparent => ?_⟩
      rcases (parent_eq_iff h0).mp hparent with rfl | rfl
      · exact h2.2.le.trans (not_lt.mp fun hlt => h1 ⟨hc, hlt⟩)
      · exact le_refl _
    · rw [if_neg h2]
      refine ⟨.inl rfl, fun c h0 hc hparent => ?_⟩
      rcases (parent_eq_iff h0).mp hparent with rfl | rfl
      · exact not_lt.mp fun hlt => h1 ⟨hc, hlt⟩
      · exact not_lt.mp fun hlt => h2 ⟨hc, hlt⟩

/-- The step of `siftDown`: the smallest child comes up. -/
theorem DownOrder.swap (h : DownOrder key heap size hole) {s : Nat} (hs : s < size)
    (hpos : 0 < s) (hparent : parent s = hole) (hlt : key (heap s) < key (heap hole))
    (hmin : ∀ c, 0 < c → c < size → parent c = hole → key (heap s) ≤ key (heap c)) :
    DownOrder key (swap heap hole s) size s := by
  have hp := parent_lt hpos
  constructor
  · intro i h0 hi hne
    have hip := parent_lt h0
    by_cases his : i = s
    · rw [his, hparent, swap_left, swap_right]
      exact hlt.le
    · by_cases hih : i = hole
      · rw [hih] at h0 hne ⊢
        have := parent_lt h0
        rw [swap_left, swap_other heap (by omega) hne]
        exact h.grand h0 s hpos hs hparent
      · rw [swap_other heap hih his]
        by_cases hpi : parent i = hole
        · rw [hpi, swap_left]
          exact hmin i h0 hi hpi
        · rw [swap_other heap hpi hne]
          exact h.except i h0 hi hpi
  · intro _ c h0 hc hcs
    have hcp := parent_lt h0
    rw [hparent, swap_left, swap_other heap (by omega) (by omega)]
    have hchild := h.except c h0 hc (by omega)
    rwa [hcs] at hchild

theorem DownOrder.heapOrder (h : DownOrder key heap size hole)
    (hhole : ∀ c, 0 < c → c < size → parent c = hole → key (heap hole) ≤ key (heap c)) :
    HeapOrder key heap size := by
  intro i h0 hi
  by_cases hpi : parent i = hole
  · rw [hpi]
    exact hhole i h0 hi hpi
  · exact h.except i h0 hi hpi

theorem siftDown_heapOrder {fuel : Nat} (h : DownOrder key heap size hole)
    (hfuel : size ≤ fuel + hole) : HeapOrder key (siftDown key fuel heap hole size) size := by
  induction fuel generalizing heap hole with
  | zero =>
      refine h.heapOrder fun c h0 hc hparent => ?_
      have := parent_lt h0
      omega
  | succ fuel ih =>
      obtain ⟨hcases, hmin⟩ := smallest_spec key heap hole size
      unfold siftDown
      split
      · next heq =>
          rw [heq] at hmin
          exact h.heapOrder hmin
      · next hne =>
          obtain ⟨hs, hpos, hparent, hlt⟩ := hcases.resolve_left hne
          have := parent_lt hpos
          exact ih (h.swap hs hpos hparent hlt hmin) (by omega)

/-! ## Contents -/

theorem range_swap_perm {i j n : Nat} (hi : i < n) (hj : j < n) :
    ((List.range n).map (Equiv.swap i j)).Perm (List.range n) := by
  have hnodup : ((List.range n).map (Equiv.swap i j)).Nodup :=
    List.nodup_range.map (Equiv.swap i j).injective
  refine (List.perm_ext_iff_of_nodup hnodup List.nodup_range).mpr fun k => ?_
  have hlt : ∀ k < n, Equiv.swap i j k < n := by
    intro k hk
    rw [Equiv.swap_apply_def]
    split
    · exact hj
    · split
      · exact hi
      · exact hk
  rw [List.mem_map, List.mem_range]
  constructor
  · rintro ⟨k', hk', rfl⟩
    exact hlt k' (List.mem_range.mp hk')
  · intro hk
    exact ⟨Equiv.swap i j k, List.mem_range.mpr (hlt k hk), Equiv.swap_apply_self i j k⟩

theorem contents_swap_perm (heap : Nat → α) {i j size : Nat} (hi : i < size) (hj : j < size) :
    (contents (swap heap i j) size).Perm (contents heap size) := by
  have h := (range_swap_perm hi hj).map heap
  rwa [List.map_map] at h

theorem contents_siftUp_perm (key : α → β) (fuel : Nat) (hhole : hole < size) :
    (contents (siftUp key fuel heap hole) size).Perm (contents heap size) := by
  induction fuel generalizing heap hole with
  | zero => exact List.Perm.refl _
  | succ fuel ih =>
      unfold siftUp
      split
      · next hpos =>
          have hp := parent_lt hpos
          split
          · exact List.Perm.refl _
          · exact (ih (by omega)).trans (contents_swap_perm heap hhole (by omega))
      · exact List.Perm.refl _

theorem contents_siftDown_perm (key : α → β) (fuel : Nat) (hhole : hole < size) :
    (contents (siftDown key fuel heap hole size) size).Perm (contents heap size) := by
  induction fuel generalizing heap hole with
  | zero => exact List.Perm.refl _
  | succ fuel ih =>
      unfold siftDown
      split
      · exact List.Perm.refl _
      · next hne =>
          obtain ⟨hs, -⟩ := (smallest_spec key heap hole size).1.resolve_left hne
          exact (ih hs).trans (contents_swap_perm heap hhole hs)

theorem contents_perm_cons (heap : Nat → α) {i size : Nat} (hi : i < size) :
    (contents heap size).Perm (heap i :: ((List.range size).erase i).map heap) :=
  (List.perm_cons_erase (List.mem_range.mpr hi)).map heap

theorem contents_update_perm (heap : Nat → α) {i size : Nat} (hi : i < size) (a : α) :
    (contents (Function.update heap i a) size).Perm
      (a :: ((List.range size).erase i).map heap) := by
  have h := contents_perm_cons (Function.update heap i a) hi
  have hrest : ((List.range size).erase i).map (Function.update heap i a) =
      ((List.range size).erase i).map heap := by
    refine List.map_congr_left fun k hk => ?_
    rw [Function.update_of_ne (List.nodup_range.mem_erase_iff.mp hk).1]
  rwa [Function.update_self, hrest] at h

theorem contents_update_swap_perm (heap : Nat → α) {i size : Nat} (hi : i < size) (a : α) :
    (heap i :: contents (Function.update heap i a) size).Perm (a :: contents heap size) := by
  refine ((contents_update_perm heap hi a).cons (heap i)).trans ?_
  exact (List.Perm.swap _ _ _).trans (((contents_perm_cons heap hi).symm).cons a)

theorem contents_succ (heap : Nat → α) (size : Nat) :
    contents heap (size + 1) = contents heap size ++ [heap size] := by
  rw [contents, List.range_succ, List.map_append]
  rfl

/-! ## Entries with more data

Sifting only looks at the keys, so it commutes with a function of the entries that keeps them. -/

section

variable {γ : Type*} (key : α → β) (f : γ → α)

theorem comp_siftUp (fuel : Nat) (heap : Nat → γ) (idx : Nat) :
    f ∘ siftUp (key ∘ f) fuel heap idx = siftUp key fuel (f ∘ heap) idx := by
  induction fuel generalizing heap idx with
  | zero => rfl
  | succ fuel ih =>
      unfold siftUp
      split
      · split
        · next hle => exact (if_pos hle).symm
        · next hlt => exact (ih _ _).trans (if_neg hlt).symm
      · rfl

theorem comp_siftDown (fuel : Nat) (heap : Nat → γ) (idx size : Nat) :
    f ∘ siftDown (key ∘ f) fuel heap idx size = siftDown key fuel (f ∘ heap) idx size := by
  have hsmallest : smallest (key ∘ f) heap idx size = smallest key (f ∘ heap) idx size := rfl
  induction fuel generalizing heap idx with
  | zero => rfl
  | succ fuel ih =>
      unfold siftDown
      split
      · next heq => exact (if_pos heq).symm
      · next hne => exact (ih _ _ rfl).trans (if_neg hne).symm

end

/-! ## The operations -/

theorem HeapOrder.insert (h : HeapOrder key heap size) (a : α) :
    HeapOrder key (siftUp key size (Function.update heap size a) size) (size + 1) := by
  refine siftUp_heapOrder ⟨fun i h0 hi hne => ?_, fun hpos c h0 hc hparent => ?_⟩
    (by omega) (Nat.le_refl size)
  · have hp := parent_lt h0
    rw [Function.update_of_ne hne, Function.update_of_ne (by omega)]
    exact h i h0 (by omega)
  · have hp := parent_lt h0
    omega

theorem contents_insert_perm (key : α → β) (heap : Nat → α) (size : Nat) (a : α) :
    (contents (siftUp key size (Function.update heap size a) size) (size + 1)).Perm
      (a :: contents heap size) := by
  refine (contents_siftUp_perm key size (by omega)).trans ?_
  have hsame : contents (Function.update heap size a) size = contents heap size := by
    refine List.map_congr_left fun k hk => ?_
    have hlt := List.mem_range.mp hk
    rw [Function.update_of_ne (by omega)]
  rw [contents_succ, hsame, Function.update_self]
  exact List.perm_append_singleton a _

/-- Overwrite an entry, then sift it up and down: one of the two does nothing. -/
theorem HeapOrder.replace (h : HeapOrder key heap size) {i : Nat} (hi : i < size) (a : α) :
    HeapOrder key (siftDown key size (siftUp key i (Function.update heap i a) i) i size)
      size := by
  have hdown := h.downOrder i
  by_cases hle : key a ≤ key (heap i)
  · have hup : UpOrder key (Function.update heap i a) size i := by
      refine ⟨fun j h0 hj hne => ?_, fun hpos c h0 hc hparent => ?_⟩
      · rw [Function.update_of_ne hne]
        have hpair := h j h0 hj
        by_cases hpj : parent j = i
        · rw [hpj, Function.update_self]
          rw [hpj] at hpair
          exact hle.trans hpair
        · rwa [Function.update_of_ne hpj]
      · have hp := parent_lt h0
        have hp' := parent_lt hpos
        rw [Function.update_of_ne (by omega), Function.update_of_ne (by omega)]
        exact hdown.grand hpos c h0 hc hparent
    exact siftDown_heapOrder ((siftUp_heapOrder hup hi (Nat.le_refl i)).downOrder i) (by omega)
  · -- the entry got larger, so its parent is still not above it
    have hstay : siftUp key i (Function.update heap i a) i = Function.update heap i a := by
      cases i with
      | zero => rfl
      | succ i =>
          have hp : parent (i + 1) < i + 1 := parent_lt (Nat.succ_pos i)
          have hpair := h (i + 1) (Nat.succ_pos i) hi
          rw [siftUp, if_pos (Nat.succ_pos i), Function.update_self,
            Function.update_of_ne (by omega), if_pos (hpair.trans (not_le.mp hle).le)]
    rw [hstay]
    refine siftDown_heapOrder ⟨fun j h0 hj hne => ?_, fun hpos c h0 hc hparent => ?_⟩ (by omega)
    · rw [Function.update_of_ne hne]
      by_cases hji : j = i
      · have hpair := h j h0 hj
        rw [hji, Function.update_self]
        rw [hji] at hpair
        exact hpair.trans (not_le.mp hle).le
      · rw [Function.update_of_ne hji]
        exact h j h0 hj
    · have hp := parent_lt h0
      have hp' := parent_lt hpos
      rw [Function.update_of_ne (by omega), Function.update_of_ne (by omega)]
      exact hdown.grand hpos c h0 hc hparent

theorem contents_replace_perm (key : α → β) (heap : Nat → α) {i size : Nat} (hi : i < size)
    (a : α) :
    (heap i :: contents (siftDown key size (siftUp key i (Function.update heap i a) i) i size)
      size).Perm (a :: contents heap size) := by
  refine List.Perm.trans (List.Perm.cons (heap i) ?_) (contents_update_swap_perm heap hi a)
  exact (contents_siftDown_perm key size hi).trans (contents_siftUp_perm key i hi)

theorem HeapOrder.removeRoot (h : HeapOrder key heap (size + 1)) :
    HeapOrder key (siftDown key size (Function.update heap 0 (heap size)) 0 size) size := by
  refine siftDown_heapOrder ⟨fun i h0 hi hne => ?_, fun hpos => absurd hpos (Nat.lt_irrefl 0)⟩
    (by omega)
  rw [Function.update_of_ne hne, Function.update_of_ne (by omega)]
  exact h i h0 (by omega)

theorem contents_removeRoot_perm (key : α → β) (heap : Nat → α) (size : Nat) :
    (heap 0 :: contents (siftDown key size (Function.update heap 0 (heap size)) 0 size)
      size).Perm (contents heap (size + 1)) := by
  rw [contents_succ]
  by_cases hsize : size = 0
  · subst hsize
    exact List.Perm.refl _
  · have hpos : 0 < size := by omega
    have hsift := (contents_siftDown_perm key size hpos).trans
      (contents_update_perm heap hpos (heap size))
    have hcons := (contents_perm_cons heap hpos).append_right [heap size]
    refine (hsift.cons (heap 0)).trans (List.Perm.trans ?_ hcons.symm)
    exact (List.perm_append_singleton (heap size) _).symm.cons (heap 0)

/-! ## Draining -/

def drain (key : α → β) : Nat → (Nat → α) → List α
  | 0, _ => []
  | size + 1, heap =>
      heap 0 :: drain key size (siftDown key size (Function.update heap 0 (heap size)) 0 size)

theorem drain_perm (key : α → β) (size : Nat) (heap : Nat → α) :
    (drain key size heap).Perm (contents heap size) := by
  induction size generalizing heap with
  | zero => exact List.Perm.refl _
  | succ size ih => exact ((ih _).cons _).trans (contents_removeRoot_perm key heap size)

theorem HeapOrder.drain_sorted (h : HeapOrder key heap size) :
    (drain key size heap).Pairwise fun a b => key a ≤ key b := by
  induction size generalizing heap with
  | zero => exact List.Pairwise.nil
  | succ size ih =>
      rw [drain, List.pairwise_cons]
      refine ⟨?_, ih h.removeRoot⟩
      intro a ha
      have hcontents : a ∈ contents heap (size + 1) :=
        (drain_perm key (size + 1) heap).subset (List.mem_cons_of_mem _ ha)
      obtain ⟨i, hi, rfl⟩ := List.mem_map.mp hcontents
      exact h.root_le (List.mem_range.mp hi)

end MiniBackend.Lib.BinaryHeap
