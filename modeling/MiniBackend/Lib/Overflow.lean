import Mathlib.Algebra.BigOperators.Ring.Finset

/-!
# Boxes that overflow

Letters are put into boxes, one after another.  A box that is full passes a letter on to other
boxes or drops it, and this is done before the next letter.  It comes to an end if and only if
there are loads that the boxes can bear: each box is counted with the letters that it is sent
and with what overflows into it.
-/

namespace MiniBackend.Lib.Overflow

structure Network (ι : Type*) where
  /-- `none` is a box that is never full. -/
  limit : ι → Option Nat
  /-- The boxes that get a letter instead, or `none` if it is dropped. -/
  forward : ι → Option (List ι)

section Sending

variable {ι : Type*} [DecidableEq ι]

def bump (f : ι → Nat) (j : ι) : ι → Nat := Function.update f j (f j + 1)

theorem bump_apply (f : ι → Nat) (j i : ι) : bump f j i = f i + if j = i then 1 else 0 := by
  unfold bump
  by_cases h : j = i
  · rw [if_pos h, ← h, Function.update_self]
  · rw [if_neg h, Function.update_of_ne (Ne.symm h), Nat.add_zero]

def Room (net : Network ι) (counts : ι → Nat) (j : ι) : Prop := ∀ m ∈ net.limit j, counts j < m

instance decidableRoom (net : Network ι) (counts : ι → Nat) (j : ι) :
    Decidable (Room net counts j) :=
  inferInstanceAs (Decidable (∀ m ∈ net.limit j, counts j < m))

/-- A letter is put into a box, and what does not fit is passed on with `pass`. -/
def put (net : Network ι) (pass : (ι → Nat) → List ι → Option (ι → Nat)) (counts : ι → Nat)
    (j : ι) : Option (ι → Nat) :=
  if Room net counts j then some (bump counts j)
  else
    match net.forward j with
    | none => some counts
    | some js => pass counts js

/-- One letter to each box of a list.  `none` when letters are passed on more than `depth`
times. -/
def send (net : Network ι) : Nat → (ι → Nat) → List ι → Option (ι → Nat)
  | 0, _, _ => none
  | depth + 1, counts, js => js.foldlM (put net (send net depth)) counts

end Sending

/-! ## Loads -/

section Loads

variable {ι : Type*} [DecidableEq ι] {net : Network ι} {counts load : ι → Nat} {js : List ι}
  {j : ι}

def excess (net : Network ι) (counts : ι → Nat) (j : ι) (n : Nat) : Nat :=
  match net.limit j with
  | none => 0
  | some m => n - (m - counts j)

def passed (net : Network ι) (j : ι) : List ι := (net.forward j).getD []

theorem excess_bump_of_room (hroom : Room net counts j) (load : ι → Nat) (k : ι) :
    excess net counts k (bump load j k) = excess net (bump counts j) k (load k) := by
  unfold excess
  rw [bump_apply, bump_apply]
  cases hlimit : net.limit k with
  | none => rfl
  | some m =>
      dsimp only
      by_cases h : j = k
      · have hlt := hroom m (by rw [h, hlimit]; rfl)
        rw [if_pos h]
        rw [h] at hlt
        omega
      · rw [if_neg h]
        omega

theorem excess_bump_of_full (hfull : ¬Room net counts j) (load : ι → Nat) (k : ι) :
    excess net counts k (bump load j k) =
      excess net counts k (load k) + if j = k then 1 else 0 := by
  rw [bump_apply]
  by_cases h : j = k
  · rw [h] at hfull
    unfold Room at hfull
    unfold excess
    cases hlimit : net.limit k with
    | none =>
        rw [hlimit] at hfull
        exact absurd (fun _ hm => nomatch hm) hfull
    | some m =>
        have hle : m ≤ counts k := by
          rw [hlimit] at hfull
          simpa using hfull
        dsimp only
        rw [if_pos h]
        omega
  · rw [if_neg h]
    rfl

theorem count_cons_le_bump (js : List ι) (load : ι → Nat) (j i : ι) (n : Nat) :
    (j :: js).count i + n ≤ bump load j i ↔ js.count i + n ≤ load i := by
  rw [List.count_cons, bump_apply]
  by_cases h : j = i
  · rw [if_pos h, if_pos (beq_iff_eq.mpr h)]
    omega
  · rw [if_neg h, if_neg (mt beq_iff_eq.mp h)]
    omega

variable [Fintype ι]

def inflow (net : Network ι) (counts load : ι → Nat) (i : ι) : Nat :=
  ∑ k, excess net counts k (load k) * (passed net k).count i

/-- Each box is loaded with the letters that it is sent and with what flows into it. -/
def Bears (net : Network ι) (counts : ι → Nat) (js : List ι) (load : ι → Nat) : Prop :=
  ∀ i, js.count i + inflow net counts load i ≤ load i

theorem inflow_bump_of_room (hroom : Room net counts j) (load : ι → Nat) (i : ι) :
    inflow net counts (bump load j) i = inflow net (bump counts j) load i := by
  apply Finset.sum_congr rfl
  intro k _
  rw [excess_bump_of_room hroom]

theorem inflow_bump_of_full (hfull : ¬Room net counts j) (load : ι → Nat) (i : ι) :
    inflow net counts (bump load j) i =
      (passed net j).count i + inflow net counts load i := by
  calc inflow net counts (bump load j) i
      = ∑ k, (excess net counts k (load k) * (passed net k).count i +
          if j = k then (passed net k).count i else 0) := by
        apply Finset.sum_congr rfl
        intro k _
        rw [excess_bump_of_full hfull, Nat.add_mul, ite_mul, Nat.one_mul, Nat.zero_mul]
    _ = inflow net counts load i + (passed net j).count i := by
        rw [Finset.sum_add_distrib, Finset.sum_ite_eq, if_pos (Finset.mem_univ j)]
        rfl
    _ = (passed net j).count i + inflow net counts load i := Nat.add_comm ..

theorem bears_cons_of_room (hroom : Room net counts j) :
    Bears net counts (j :: js) (bump load j) ↔ Bears net (bump counts j) js load := by
  apply forall_congr'
  intro i
  rw [inflow_bump_of_room hroom]
  exact count_cons_le_bump js load j i _

theorem bears_cons_of_full (hfull : ¬Room net counts j) :
    Bears net counts (j :: js) (bump load j) ↔ Bears net counts (passed net j ++ js) load := by
  apply forall_congr'
  intro i
  rw [inflow_bump_of_full hfull, count_cons_le_bump, List.count_append]
  omega

theorem Bears.exists_bump (h : Bears net counts (j :: js) load) :
    ∃ rest, load = bump rest j := by
  have hj := h j
  rw [List.count_cons_self] at hj
  refine ⟨Function.update load j (load j - 1), ?_⟩
  rw [bump, Function.update_idem, Function.update_self, Nat.sub_add_cancel (by omega),
    Function.update_eq_self]

theorem sum_bump (load : ι → Nat) (j : ι) : ∑ k, bump load j k = ∑ k, load k + 1 := by
  calc ∑ k, bump load j k
      = ∑ k, (load k + if j = k then 1 else 0) :=
        Finset.sum_congr rfl fun k _ => bump_apply load j k
    _ = ∑ k, load k + 1 := by
        rw [Finset.sum_add_distrib, Finset.sum_ite_eq, if_pos (Finset.mem_univ j)]

theorem bears_nil (net : Network ι) (counts : ι → Nat) : Bears net counts [] fun _ => 0 := by
  intro i
  have hnone : inflow net counts (fun _ => 0) i = 0 := by
    apply Finset.sum_eq_zero
    intro k _
    have hzero : excess net counts k 0 = 0 := by
      unfold excess
      cases net.limit k with
      | none => rfl
      | some m => exact Nat.zero_sub _
    rw [hzero, Nat.zero_mul]
  rw [hnone, List.count_nil]

/-- What is left to be sent can be borne by what is left of the loads. -/
theorem exists_bears_of_send {depth : Nat} {counts' rest : ι → Nat} {more : List ι}
    (hsend : send net depth counts js = some counts') (h : Bears net counts' more rest) :
    ∃ load, Bears net counts (js ++ more) load := by
  induction depth generalizing counts js counts' rest more with
  | zero => contradiction
  | succ depth ih =>
      rw [send] at hsend
      induction js generalizing counts with
      | nil =>
          have hsame : counts = counts' := Option.some.inj hsend
          rw [hsame]
          exact ⟨rest, h⟩
      | cons j js ihjs =>
          rw [List.foldlM_cons] at hsend
          obtain ⟨counts₁, hput, hloop⟩ := Option.bind_eq_some_iff.mp hsend
          obtain ⟨load, hload⟩ := ihjs hloop
          unfold put at hput
          split at hput
          next hroom =>
            rw [← Option.some.inj hput] at hload
            exact ⟨bump load j, (bears_cons_of_room hroom).mpr hload⟩
          next hfull =>
            split at hput
            next hdropped =>
              rw [← Option.some.inj hput] at hload
              refine ⟨bump load j, (bears_cons_of_full hfull).mpr ?_⟩
              rw [passed, hdropped]
              exact hload
            next js' hforward =>
              obtain ⟨load', hload'⟩ := ih hput hload
              refine ⟨bump load' j, (bears_cons_of_full hfull).mpr ?_⟩
              rw [passed, hforward]
              exact hload'

/-- Each letter that is passed on takes one of the loads. -/
theorem exists_send_of_bears {depth : Nat} {more : List ι}
    (h : Bears net counts (js ++ more) load) (hdepth : ∑ k, load k < depth) :
    ∃ counts' rest, send net depth counts js = some counts' ∧ Bears net counts' more rest ∧
      ∑ k, rest k ≤ ∑ k, load k := by
  induction depth generalizing counts js load more with
  | zero => omega
  | succ depth ih =>
      rw [send]
      induction js generalizing counts load with
      | nil => exact ⟨counts, load, rfl, h, Nat.le_refl _⟩
      | cons j js ihjs =>
          obtain ⟨left, rfl⟩ := h.exists_bump
          rw [sum_bump] at hdepth ⊢
          have hput : ∃ counts₁ load₁, put net (send net depth) counts j = some counts₁ ∧
              Bears net counts₁ (js ++ more) load₁ ∧ ∑ k, load₁ k ≤ ∑ k, left k := by
            unfold put
            split
            next hroom =>
              exact ⟨_, left, rfl, (bears_cons_of_room hroom).mp h, Nat.le_refl _⟩
            next hfull =>
              have hpassed := (bears_cons_of_full hfull).mp h
              rw [passed] at hpassed
              split
              next hdropped =>
                rw [hdropped] at hpassed
                exact ⟨counts, left, rfl, hpassed, Nat.le_refl _⟩
              next js' hforward =>
                rw [hforward] at hpassed
                exact ih hpassed (by omega)
          obtain ⟨counts₁, load₁, hfirst, hload₁, hle⟩ := hput
          obtain ⟨counts', rest, hloop, hrest, hle'⟩ := ihjs hload₁ (by omega)
          refine ⟨counts', rest, ?_, hrest, by omega⟩
          rw [List.foldlM_cons, hfirst]
          exact hloop

theorem exists_send_iff : (∃ depth, (send net depth counts js).isSome) ↔
    ∃ load, Bears net counts js load := by
  constructor
  · intro ⟨depth, hsome⟩
    obtain ⟨counts', hsend⟩ := Option.isSome_iff_exists.mp hsome
    have hload := exists_bears_of_send hsend (bears_nil net counts')
    rwa [List.append_nil] at hload
  · intro ⟨load, hload⟩
    rw [← List.append_nil js] at hload
    obtain ⟨counts', _, hsend, _⟩ := exists_send_of_bears hload (Nat.lt_succ_self _)
    exact ⟨_, Option.isSome_iff_exists.mpr ⟨counts', hsend⟩⟩

end Loads

end MiniBackend.Lib.Overflow
