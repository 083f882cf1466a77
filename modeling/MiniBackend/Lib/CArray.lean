import Mathlib.Data.List.Basic
import Mathlib.Data.List.Forall2

/-!
# Counted arrays

A C array with a count is the list of its used entries.  These are the loops that
programs write over such arrays, with the lemmas that describe what they leave
behind.
-/

namespace MiniBackend.Lib.CArray

variable {α : Type*}

def updateFirst (p : α → Bool) (f : α → α) : List α → List α
  | [] => []
  | a :: l => if p a then f a :: l else a :: updateFirst p f l

def lastIndex (p : α → Bool) : List α → Option Nat
  | [] => none
  | a :: l =>
      match lastIndex p l with
      | some i => some (i + 1)
      | none => if p a then some 0 else none

def findIndex (p : Nat → Bool) (n : Nat) : Option Nat := (List.range n).find? p

theorem findIndex_eq_some {p : Nat → Bool} {n i : Nat} :
    findIndex p n = some i ↔ p i = true ∧ i < n ∧ ∀ j < i, p j = false := by
  simp [findIndex, List.find?_range_eq_some]

theorem findIndex_eq_none {p : Nat → Bool} {n : Nat} :
    findIndex p n = none ↔ ∀ i < n, p i = false := by
  simp [findIndex]

def swapRemove (l : List α) (i : Nat) : List α :=
  match l.getLast? with
  | none => l
  | some last => (l.set i last).dropLast

/-! ## Updating the first match -/

theorem find?_updateFirst {p : α → Bool} {f : α → α}
    (hf : ∀ a, p a = true → p (f a) = true) (l : List α) :
    (updateFirst p f l).find? p = (l.find? p).map f := by
  induction l with
  | nil => rfl
  | cons a l ih =>
      by_cases ha : p a = true
      · simp [updateFirst, ha, hf a ha]
      · simp [updateFirst, ha, ih]

/-- An entry after the update was there before, or is the one that is written. -/
theorem mem_updateFirst {p : α → Bool} {f : α → α} {l : List α} {a : α}
    (h : a ∈ updateFirst p f l) : a ∈ l ∨ ∃ b ∈ l, p b = true ∧ a = f b := by
  induction l with
  | nil => exact absurd h List.not_mem_nil
  | cons b l ih =>
      unfold updateFirst at h
      split at h
      next hb =>
        rcases List.mem_cons.mp h with rfl | hl
        · exact Or.inr ⟨b, List.mem_cons_self, hb, rfl⟩
        · exact Or.inl (List.mem_cons_of_mem b hl)
      next =>
        rcases List.mem_cons.mp h with rfl | hl
        · exact Or.inl List.mem_cons_self
        · rcases ih hl with hold | ⟨c, hc, hp, hwritten⟩
          · exact Or.inl (List.mem_cons_of_mem b hold)
          · exact Or.inr ⟨c, List.mem_cons_of_mem b hc, hp, hwritten⟩

theorem updateFirst_eq_map {p : α → Bool} {f : α → α} {l : List α}
    (h : l.Pairwise fun a b => p a = true → p b = false) :
    updateFirst p f l = l.map fun a => if p a then f a else a := by
  induction l with
  | nil => rfl
  | cons a l ih =>
      obtain ⟨ha, hl⟩ := List.pairwise_cons.mp h
      unfold updateFirst
      rw [List.map_cons]
      split
      next hp =>
        have hrest : (l.map fun b => if p b then f b else b) = l.map id :=
          List.map_congr_left fun b hb => by simp [ha b hb hp]
        rw [hrest, List.map_id]
      next hp => rw [ih hl]

theorem updateFirst_of_forall_not {p : α → Bool} (f : α → α) {l : List α}
    (h : ∀ a ∈ l, p a = false) : updateFirst p f l = l := by
  induction l with
  | nil => rfl
  | cons a l ih =>
      obtain ⟨ha, hl⟩ := List.forall_mem_cons.mp h
      rw [updateFirst, if_neg (by simp [ha]), ih hl]

theorem updateFirst_append_of_forall_not {p : α → Bool} (f : α → α) {l : List α} (l' : List α)
    (h : ∀ a ∈ l, p a = false) : updateFirst p f (l ++ l') = l ++ updateFirst p f l' := by
  induction l with
  | nil => rfl
  | cons a l ih =>
      obtain ⟨ha, hl⟩ := List.forall_mem_cons.mp h
      rw [List.cons_append, updateFirst, if_neg (by simp [ha]), ih hl, List.cons_append]

theorem updateFirst_append_of_exists {p : α → Bool} (f : α → α) {l l' : List α}
    (h : ∃ a ∈ l, p a = true) : updateFirst p f (l ++ l') = updateFirst p f l ++ l' := by
  induction l with
  | nil => simp at h
  | cons a l ih =>
      rw [List.cons_append, updateFirst, updateFirst]
      split
      · rfl
      · rename_i hfirst
        rw [ih, List.cons_append]
        simpa [hfirst] using h

/-- When no two entries satisfy `p`, removing the first one leaves no other. -/
theorem eraseP_eq_filter {p : α → Bool} {l : List α}
    (h : l.Pairwise fun a b => p a = true → p b = false) :
    l.eraseP p = l.filter fun a => !p a := by
  induction l with
  | nil => rfl
  | cons a l ih =>
      obtain ⟨ha, hl⟩ := List.pairwise_cons.mp h
      by_cases hp : p a = true
      · have hrest : ∀ b ∈ l, (!p b) = true := fun b hb => by rw [ha b hb hp]; rfl
        rw [List.eraseP_cons_of_pos hp, List.filter_cons_of_neg (by simp [hp]),
          List.filter_eq_self.mpr hrest]
      · rw [List.eraseP_cons_of_neg hp, List.filter_cons_of_pos (by simpa using hp), ih hl]

theorem pairwise_of_nodup_map {β : Type*} [DecidableEq β] {f : α → β} {l : List α}
    (h : (l.map f).Nodup) (b : β) :
    l.Pairwise fun a a' => decide (f a = b) = true → decide (f a' = b) = false := by
  apply (List.pairwise_map.mp h).imp
  intro a a' hne ha
  rw [← of_decide_eq_true ha]
  exact decide_eq_false (Ne.symm hne)

theorem pairwise_beq_of_nodup_map {β : Type*} [BEq β] [LawfulBEq β] {f : α → β} {l : List α}
    (h : (l.map f).Nodup) (b : β) :
    l.Pairwise fun a a' => (f a == b) = true → (f a' == b) = false := by
  apply (List.pairwise_map.mp h).imp
  intro a a' hne ha
  rw [beq_iff_eq] at ha
  rw [beq_eq_false_iff_ne, ← ha]
  exact hne.symm

theorem find?_eq_some_iff_of_pairwise {p : α → Bool} {l : List α}
    (h : l.Pairwise fun a b => p a = true → p b = false) {a : α} :
    l.find? p = some a ↔ a ∈ l ∧ p a = true := by
  induction l with
  | nil => simp
  | cons b l ih =>
      obtain ⟨hb, hl⟩ := List.pairwise_cons.mp h
      by_cases hp : p b = true
      · rw [List.find?_cons_of_pos hp, Option.some.injEq]
        constructor
        · intro heq
          exact heq ▸ ⟨List.mem_cons_self, hp⟩
        · intro hmem
          rcases List.mem_cons.mp hmem.1 with heq | hrest
          · exact heq.symm
          · have hno := hb a hrest hp
            rw [hmem.2] at hno
            contradiction
      · rw [List.find?_cons_of_neg hp, ih hl, List.mem_cons]
        constructor
        · exact fun hmem => ⟨Or.inr hmem.1, hmem.2⟩
        · intro hmem
          refine ⟨hmem.1.resolve_left ?_, hmem.2⟩
          intro heq
          exact hp (heq ▸ hmem.2)

theorem find?_reverse_of_pairwise {p : α → Bool} {l : List α}
    (h : l.Pairwise fun a b => p a = true → p b = false) : l.reverse.find? p = l.find? p := by
  have hreverse : l.reverse.Pairwise fun a b => p a = true → p b = false := by
    rw [List.pairwise_reverse]
    refine h.imp fun {a b} hab hb => ?_
    rw [Bool.eq_false_iff]
    intro ha
    rw [hab ha] at hb
    cases hb
  ext a
  rw [find?_eq_some_iff_of_pairwise h, find?_eq_some_iff_of_pairwise hreverse, List.mem_reverse]

theorem find?_perm_of_pairwise {p : α → Bool} {l l' : List α} (hperm : l.Perm l')
    (h : l.Pairwise fun a b => p a = true → p b = false)
    (h' : l'.Pairwise fun a b => p a = true → p b = false) : l.find? p = l'.find? p := by
  ext a
  rw [find?_eq_some_iff_of_pairwise h, find?_eq_some_iff_of_pairwise h', hperm.mem_iff]

theorem find?_beq_eq_some_iff {β : Type*} [BEq β] [LawfulBEq β] {g : α → β} {b : β} {l : List α}
    (h : (l.map g).Nodup) {a : α} :
    l.find? (fun a => g a == b) = some a ↔ a ∈ l ∧ g a = b := by
  rw [find?_eq_some_iff_of_pairwise (pairwise_beq_of_nodup_map h b), beq_iff_eq]

theorem mem_updateFirst_beq {β : Type*} [BEq β] [LawfulBEq β] {g : α → β} {b : β} {f : α → α}
    {l : List α} (h : (l.map g).Nodup) {a : α}
    (ha : a ∈ updateFirst (fun a => g a == b) f l) :
    (a ∈ l ∧ g a ≠ b) ∨ ∃ c ∈ l, g c = b ∧ a = f c := by
  rw [updateFirst_eq_map (pairwise_beq_of_nodup_map h b), List.mem_map] at ha
  obtain ⟨c, hc, hwritten⟩ := ha
  by_cases hkey : g c = b
  · rw [if_pos (beq_iff_eq.mpr hkey)] at hwritten
    exact Or.inr ⟨c, hc, hkey, hwritten.symm⟩
  · rw [if_neg (by simpa using hkey)] at hwritten
    exact Or.inl ⟨hwritten ▸ hc, hwritten ▸ hkey⟩

theorem map_updateFirst {β : Type*} {p : α → Bool} {f : α → α} {g : α → β}
    (h : ∀ a, g (f a) = g a) (l : List α) : (updateFirst p f l).map g = l.map g := by
  induction l with
  | nil => rfl
  | cons a l ih =>
      unfold updateFirst
      split
      · rw [List.map_cons, List.map_cons, h]
      · rw [List.map_cons, List.map_cons, ih]

theorem length_updateFirst {p : α → Bool} {f : α → α} (l : List α) :
    (updateFirst p f l).length = l.length := by
  induction l with
  | nil => rfl
  | cons a l ih =>
      unfold updateFirst
      split
      · rfl
      · rw [List.length_cons, List.length_cons, ih]

/-- An update of the entries with `p` is not seen by a search for a disjoint `q`. -/
theorem find?_updateFirst_of_disjoint {p q : α → Bool} {f : α → α}
    (hq : ∀ a, p a = true → q a = false ∧ q (f a) = false) (l : List α) :
    (updateFirst p f l).find? q = l.find? q := by
  induction l with
  | nil => rfl
  | cons a l ih =>
      by_cases ha : p a = true
      · simp [updateFirst, ha, (hq a ha).1, (hq a ha).2]
      · rw [updateFirst, if_neg ha, List.find?_cons, List.find?_cons, ih]

theorem forall₂_updateFirst {β : Type*} {R : α → β → Prop} {p : α → Bool} {q : β → Bool}
    {f : α → α} {g : β → β} {l : List α} {l' : List β} (h : List.Forall₂ R l l')
    (hpq : ∀ a ∈ l, ∀ b ∈ l', R a b → p a = q b)
    (hfg : ∀ a b, R a b → p a = true → R (f a) (g b)) :
    List.Forall₂ R (updateFirst p f l) (updateFirst q g l') := by
  induction h with
  | nil => exact .nil
  | cons hab hrest ih =>
      rename_i a b l l'
      have hhead := hpq a List.mem_cons_self b List.mem_cons_self hab
      unfold updateFirst
      by_cases ha : p a = true
      · rw [if_pos ha, if_pos (hhead ▸ ha)]
        exact .cons (hfg a b hab ha) hrest
      · rw [if_neg ha, if_neg (hhead ▸ ha)]
        refine .cons hab (ih ?_)
        exact fun a' ha' b' hb' =>
          hpq a' (List.mem_cons_of_mem _ ha') b' (List.mem_cons_of_mem _ hb')

theorem exists_of_forall₂ {β : Type*} {R : α → β → Prop} {l : List α} {l' : List β}
    (h : List.Forall₂ R l l') {a : α} (ha : a ∈ l) : ∃ b ∈ l', R a b := by
  induction h with
  | nil => exact absurd ha List.not_mem_nil
  | cons hab _ ih =>
      rcases List.mem_cons.mp ha with rfl | hrest
      · exact ⟨_, List.mem_cons_self, hab⟩
      · obtain ⟨b, hb, hr⟩ := ih hrest
        exact ⟨b, List.mem_cons_of_mem _ hb, hr⟩

/-! ## Updating at an index -/

theorem map_modify_of_forall {β : Type*} {f : α → α} {g : α → β} (h : ∀ a, g (f a) = g a)
    (l : List α) (i : Nat) : (l.modify i f).map g = l.map g := by
  apply List.ext_getElem?
  intro j
  rw [List.getElem?_map, List.getElem?_map, List.getElem?_modify]
  cases l[j]? with
  | none => rfl
  | some a =>
      by_cases hij : i = j
      · simp [hij, h]
      · simp [hij]

theorem modify_append_cons (f : α → α) (l m : List α) (a : α) :
    (l ++ a :: m).modify l.length f = l ++ f a :: m := by
  induction l with
  | nil => rfl
  | cons b l ih => rw [List.cons_append, List.length_cons, List.modify_succ_cons, ih,
      List.cons_append]

/-- An entry that is replaced by one that a search cannot tell from it. -/
theorem findIdx?_set {p : α → Bool} {l : List α} {i : Nat} {a b : α} (hget : l[i]? = some a)
    (hsame : p b = p a) : (l.set i b).findIdx? p = l.findIdx? p := by
  have hmap : (l.set i b).map p = l.map p := by
    apply List.ext_getElem?
    intro j
    rw [List.getElem?_map, List.getElem?_map]
    by_cases hij : i = j
    · rw [← hij, List.getElem?_set_self (List.getElem?_eq_some_iff.mp hget).1, hget,
        Option.map_some, Option.map_some, hsame]
    · rw [List.getElem?_set_ne hij]
  calc (l.set i b).findIdx? p
      = ((l.set i b).map p).findIdx? id := by rw [List.findIdx?_map, Function.id_comp]
    _ = (l.map p).findIdx? id := by rw [hmap]
    _ = l.findIdx? p := by rw [List.findIdx?_map, Function.id_comp]

theorem modify_congr {f g : α → α} {l : List α} {i : Nat} (h : ∀ a ∈ l[i]?, f a = g a) :
    l.modify i f = l.modify i g := by
  apply List.ext_getElem?
  intro j
  rw [List.getElem?_modify, List.getElem?_modify]
  by_cases hij : i = j
  · rw [hij] at h
    cases hj : l[j]? with
    | none => rfl
    | some a =>
        simp only [if_pos hij, Option.map_eq_map, Option.map_some]
        rw [h a hj]
  · simp only [if_neg hij]

theorem foldl_modify_range (f : α → α) (l : List α) :
    (List.range l.length).foldl (fun l j => l.modify j f) l = l.map f := by
  have hloop : ∀ n i, ((List.range n).foldl (fun l j => l.modify j f) l)[i]? =
      if i < n then l[i]?.map f else l[i]? := by
    intro n
    induction n with
    | zero => exact fun i => rfl
    | succ n ih =>
        intro i
        rw [List.range_succ, List.foldl_append, List.foldl_cons, List.foldl_nil,
          List.getElem?_modify, ih]
        by_cases hn : n = i
        · rw [if_neg (by omega), if_pos (by omega)]
          simp only [if_pos hn, Option.map_eq_map]
        · simp only [if_neg hn, id_map']
          by_cases hi : i < n
          · rw [if_pos hi, if_pos (by omega)]
          · rw [if_neg hi, if_neg (by omega)]
  apply List.ext_getElem?
  intro i
  rw [hloop, List.getElem?_map]
  by_cases hi : i < l.length
  · rw [if_pos hi]
  · rw [if_neg hi, List.getElem?_eq_none (Nat.le_of_not_lt hi)]
    rfl

theorem foldlM_flatMap {β γ : Type*} (f : α → List β) (g : γ → β → Option γ)
    (l : List α) (c : γ) : (l.flatMap f).foldlM g c = l.foldlM (fun c a => (f a).foldlM g c) c := by
  induction l generalizing c with
  | nil => rfl
  | cons a l ih =>
      rw [List.flatMap_cons, List.foldlM_append, List.foldlM_cons]
      cases (f a).foldlM g c with
      | none => rfl
      | some c' => exact ih c'

theorem foldlM_invariant {σ : Type*} {P : σ → Prop} {g : σ → α → Option σ}
    {l : List α} (hkept : ∀ s, ∀ a ∈ l, ∀ s', P s → g s a = some s' → P s') {s s' : σ}
    (hs : P s) (hloop : l.foldlM g s = some s') : P s' := by
  induction l generalizing s with
  | nil => exact Option.some.inj hloop ▸ hs
  | cons a l ih =>
      rw [List.foldlM_cons] at hloop
      obtain ⟨next, hround, hrest⟩ := Option.bind_eq_some_iff.mp hloop
      exact ih (fun s b hb => hkept s b (List.mem_cons_of_mem a hb))
        (hkept s a List.mem_cons_self next hs hround) hrest

theorem foldlM_of_mem {σ : Type*} {g : σ → α → Option σ} {l : List α} {a : α} (ha : a ∈ l)
    {s s' : σ} (hloop : l.foldlM g s = some s') :
    ∃ before after s₁ s₂, l = before ++ a :: after ∧ before.foldlM g s = some s₁ ∧
      g s₁ a = some s₂ ∧ after.foldlM g s₂ = some s' := by
  obtain ⟨before, after, hl⟩ := List.append_of_mem ha
  rw [hl, List.foldlM_append] at hloop
  obtain ⟨s₁, hbefore, hrest⟩ := Option.bind_eq_some_iff.mp hloop
  rw [List.foldlM_cons] at hrest
  obtain ⟨s₂, hround, hafter⟩ := Option.bind_eq_some_iff.mp hrest
  exact ⟨before, after, s₁, s₂, hl, hbefore, hround, hafter⟩

theorem foldlM_eq_some_foldl {σ : Type*} {I : σ → Prop} {g : σ → α → Option σ}
    {h : σ → α → σ} (hdefined : ∀ s a, I s → g s a = some (h s a))
    (hkept : ∀ s a, I s → I (h s a)) (l : List α) {s : σ} (hs : I s) :
    l.foldlM g s = some (l.foldl h s) := by
  induction l generalizing s with
  | nil => rfl
  | cons a l ih =>
      rw [List.foldlM_cons, hdefined s a hs, List.foldl_cons]
      exact ih (hkept s a hs)

/-- A loop on a part of the state, when each round is one on that part. -/
theorem map_foldlM_of_invariant {σ τ : Type*} {P : σ → Prop} {g : σ → α → Option σ}
    {h : τ → α → Option τ} {f : σ → τ} (hround : ∀ s a, P s → (g s a).map f = h (f s) a)
    (hkept : ∀ s a s', P s → g s a = some s' → P s') (l : List α) {s : σ} (hs : P s) :
    (l.foldlM g s).map f = l.foldlM h (f s) := by
  induction l generalizing s with
  | nil => rfl
  | cons a l ih =>
      rw [List.foldlM_cons, List.foldlM_cons, ← hround s a hs]
      cases hg : g s a with
      | none => rfl
      | some s' => exact ih (hkept s a s' hs hg)

/-! ## Removal by swapping -/

theorem swapRemove_perm_eraseIdx {l : List α} {i : Nat} (hi : i < l.length) :
    (swapRemove l i).Perm (l.eraseIdx i) := by
  obtain ⟨front, a, back, rfl, rfl⟩ : ∃ front a back, l = front ++ a :: back ∧ i = front.length :=
    ⟨l.take i, l[i], l.drop (i + 1), by simp, by simp; omega⟩
  rw [List.eraseIdx_append_of_length_le Nat.le.refl, Nat.sub_self, List.eraseIdx_zero,
    List.tail_cons]
  rcases List.eq_nil_or_concat back with rfl | ⟨mid, z, rfl⟩
  · simp [swapRemove]
  · have hlast : (front ++ a :: (mid ++ [z])).getLast? = some z := by
      rw [← List.cons_append, ← List.append_assoc, List.getLast?_concat]
    have hset : (front ++ a :: (mid ++ [z])).set front.length z = front ++ z :: mid ++ [z] := by
      simp
    rw [swapRemove, List.concat_eq_append, hlast]
    dsimp only
    rw [hset, List.dropLast_concat]
    exact List.Perm.append_left front (List.perm_append_singleton z mid).symm

theorem swapRemove_perm_erase [DecidableEq α] {l : List α} {a : α} (ha : a ∈ l) :
    (swapRemove l (l.idxOf a)).Perm (l.erase a) := by
  have h := swapRemove_perm_eraseIdx (List.idxOf_lt_length_iff.mpr ha)
  rwa [← List.erase_eq_eraseIdx_of_idxOf rfl] at h

theorem getElem?_swapRemove {l : List α} {i : Nat} (hi : i < l.length) (j : Nat) :
    (swapRemove l i)[j]? =
      if j + 1 < l.length then if j = i then l.getLast? else l[j]? else none := by
  have hne : l ≠ [] := by
    rintro rfl
    exact absurd hi (Nat.not_lt_zero i)
  rw [swapRemove, List.getLast?_eq_some_getLast hne]
  dsimp only
  rw [List.getElem?_dropLast, List.length_set]
  by_cases hj : j < l.length - 1
  · rw [if_pos hj, if_pos (by omega), List.getElem?_set]
    by_cases hij : j = i
    · rw [if_pos hij.symm, if_pos hij, if_pos hi]
    · rw [if_neg (Ne.symm hij), if_neg hij]
  · rw [if_neg hj, if_neg (by omega)]

/-- `for (i = n - 1; i >= 0; i--)`, removing the entries with `p` by swapping, with the number of
those that were removed. -/
def sweepLoop (p : α → Bool) : Nat → Nat × List α → Nat × List α
  | 0, r => r
  | i + 1, (removed, l) =>
      match l[i]? with
      | none => sweepLoop p i (removed, l)
      | some a =>
          if p a then sweepLoop p i (removed + 1, swapRemove l i)
          else sweepLoop p i (removed, l)

/-- What a sweep leaves behind: the other entries, some of them where they were. -/
structure Swept (p : α → Bool) (l : List α) (removed : Nat) (r : Nat × List α) : Prop where
  perm : r.2.Perm (l.filter fun a => !p a)
  removed : r.1 = removed + (l.filter p).length
  stays : ∀ j a, j < (l.filter fun a => !p a).length → l[j]? = some a → p a = false →
    r.2[j]? = some a

theorem length_filter_add_filter_not (p : α → Bool) (l : List α) :
    (l.filter p).length + (l.filter fun a => !p a).length = l.length := by
  exact (List.length_eq_length_filter_add p).symm

theorem sweepLoop_spec {p : α → Bool} {n : Nat} {l : List α} (hn : n ≤ l.length)
    (hlive : ∀ j a, n ≤ j → l[j]? = some a → p a = false) (removed : Nat) :
    Swept p l removed (sweepLoop p n (removed, l)) := by
  induction n generalizing l removed with
  | zero =>
      have hall : ∀ a ∈ l, p a = false := by
        intro a ha
        obtain ⟨j, hj⟩ := List.mem_iff_getElem?.mp ha
        exact hlive j a (Nat.zero_le j) hj
      have hkeep : (l.filter fun a => !p a) = l :=
        List.filter_eq_self.mpr fun a ha => by rw [hall a ha, Bool.not_false]
      have hnone : l.filter p = [] :=
        List.filter_eq_nil_iff.mpr fun a ha => by rw [hall a ha]; exact Bool.false_ne_true
      exact ⟨by rw [hkeep, sweepLoop], by rw [hnone]; rfl, fun j a _ hj _ => hj⟩
  | succ n ih =>
      have hget : l[n]? = some l[n] := List.getElem?_eq_getElem hn
      rw [sweepLoop, hget]
      dsimp only
      by_cases hp : p l[n] = true
      · rw [if_pos hp]
        have hperm : (swapRemove l n).Perm (l.eraseIdx n) := swapRemove_perm_eraseIdx hn
        have hwhole : (l[n] :: l.eraseIdx n).Perm l := by
          rw [List.eraseIdx_eq_take_drop_succ]
          apply List.perm_middle.symm.trans
          rw [← List.drop_eq_getElem_cons hn, List.take_append_drop]
        have hkeep : ((swapRemove l n).filter fun a => !p a).Perm (l.filter fun a => !p a) := by
          apply (hperm.filter _).trans
          have h := hwhole.filter fun a => !p a
          rwa [List.filter_cons_of_neg (by simp [hp])] at h
        have hgone : ((swapRemove l n).filter p).length + 1 = (l.filter p).length := by
          rw [← (hwhole.filter p).length_eq, List.filter_cons_of_pos hp, List.length_cons,
            (hperm.filter p).length_eq]
        have hlength : (swapRemove l n).length + 1 = l.length := by
          rw [hperm.length_eq, List.length_eraseIdx_of_lt hn]
          omega
        have hrest := ih (l := swapRemove l n) (by omega) (by
          intro j a hj ha
          rw [getElem?_swapRemove hn] at ha
          by_cases hlast : j + 1 < l.length
          · rw [if_pos hlast] at ha
            by_cases hjn : j = n
            · -- the entry that was moved into the hole came from behind it
              rw [if_pos hjn, List.getLast?_eq_getElem?] at ha
              exact hlive _ a (by omega) ha
            · rw [if_neg hjn] at ha
              exact hlive j a (by omega) ha
          · rw [if_neg hlast] at ha
            cases ha) (removed + 1)
        refine ⟨hrest.perm.trans hkeep, by rw [hrest.removed]; omega, ?_⟩
        intro j a hj ha hpa
        apply hrest.stays j a _ _ hpa
        · rw [hkeep.length_eq]
          exact hj
        · have hfewer := length_filter_add_filter_not p l
          rw [getElem?_swapRemove hn, if_pos (by omega), if_neg, ha]
          rintro rfl
          rw [hget, Option.some.injEq] at ha
          rw [ha, hpa] at hp
          cases hp
      · rw [if_neg hp]
        apply ih (by omega)
        intro j a hj ha
        rcases Nat.eq_or_lt_of_le hj with rfl | hlt
        · rw [hget, Option.some.injEq] at ha
          rw [← ha]
          simpa using hp
        · exact hlive j a hlt ha

theorem sweep_spec (p : α → Bool) (l : List α) :
    Swept p l 0 (sweepLoop p l.length (0, l)) := by
  apply sweepLoop_spec (Nat.le_refl _)
  intro j a hj ha
  rw [List.getElem?_eq_none hj] at ha
  cases ha

end MiniBackend.Lib.CArray
