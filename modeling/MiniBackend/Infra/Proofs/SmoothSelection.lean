import MiniBackend.Infra.GatewayRouting
import MiniBackend.Lib.Runs
import MiniBackend.Lib.SmoothRoundRobin

/-!
# When the selection is proportional for a service

The running weights are kept by index alone, and a selection for one service goes on with the
weights that the last selection for any other service left.  A service gets its shares as long
as each of its selections finds the weights that its own last one left.
-/

namespace MiniBackend.Infra.Proofs.SmoothSelection

open MiniBackend.Lib.CString MiniBackend.Lib.Runs MiniBackend.Lib.SmoothRoundRobin
open MiniBackend.Infra.Gateway

/-- The static weights, with the selections of each service and the weights that its last one
left. -/
structure System where
  currentWeights : Nat → Int
  picks : CStr → List Nat
  own : CStr → Nat → Int

def init : System := ⟨fun _ => 0, fun _ => [], fun _ _ => 0⟩

def step (gateway : GwGateway) (s : System) (service : CStr) : Option System :=
  (gwUpstreamSelectSwrr gateway s.currentWeights service).map fun (selected, currentWeights) =>
    match selected with
    | some i =>
        { currentWeights
          picks := Function.update s.picks service (s.picks service ++ [i])
          own := Function.update s.own service currentWeights }
    | none => { s with currentWeights }

def healthyAt (upstreams : List GwUpstream) (i : Nat) : Bool :=
  upstreams[i]?.any (·.healthy)

def healthyIndices (upstreams : List GwUpstream) : Finset Nat :=
  (Finset.range upstreams.length).filter fun i => healthyAt upstreams i = true

def weightOf (upstream : GwUpstream) : Nat :=
  if upstream.healthy then upstream.weight.toNat else 0

def weightAt (upstreams : List GwUpstream) (i : Nat) : Nat :=
  (upstreams[i]?.map weightOf).getD 0

def weightSum (upstreams : List GwUpstream) : Nat :=
  totalWeight (healthyIndices upstreams) (weightAt upstreams)

/-- In as many selections of a service in a row as its weights add up to, each upstream has its
share. -/
def Proportional (gateway : GwGateway) (s : System) : Prop :=
  ∀ service, ∀ upstreams ∈ findUpstreams gateway service, ∀ a,
    a + weightSum upstreams ≤ (s.picks service).length →
      ∀ i, (((s.picks service).drop a).take (weightSum upstreams)).count i =
        weightAt upstreams i

/-- Nobody else has changed the weights of a service since its last selection, and the sums of
the call are defined. -/
def Kept (gateway : GwGateway) (s : System) (service : CStr) : Prop :=
  ∀ upstreams ∈ findUpstreams gateway service, IsInt (weightSum upstreams) ∧
    ∀ i ∈ healthyIndices upstreams, s.currentWeights i = s.own service i ∧
      i < weightCount ∧ IsInt (s.currentWeights i + weightAt upstreams i)

instance decidableKept (gateway : GwGateway) (s : System) (service : CStr) :
    Decidable (Kept gateway s service) :=
  inferInstanceAs (Decidable (∀ upstreams ∈ findUpstreams gateway service,
    _ ∧ ∀ i ∈ healthyIndices upstreams, _))

/-! ## The loop -/

/-- The index and the weight that the loop ends with, when the weights are `c`. -/
def bestFrom : List GwUpstream → Nat → (Nat → Int) → Option Nat × Int → Option Nat × Int
  | [], _, _, best => best
  | upstream :: upstreams, i, c, best =>
      bestFrom upstreams (i + 1) c
        (if upstream.healthy ∧ best.2 < c i then (some i, c i) else best)

theorem bestFrom_congr {upstreams : List GwUpstream} {i : Nat} {c c' : Nat → Int}
    (h : ∀ k, healthyAt upstreams k = true → c (i + k) = c' (i + k))
    (best : Option Nat × Int) : bestFrom upstreams i c best = bestFrom upstreams i c' best := by
  induction upstreams generalizing i best with
  | nil => rfl
  | cons upstream upstreams ih =>
      have hrest : ∀ k, healthyAt upstreams k = true → c (i + 1 + k) = c' (i + 1 + k) := by
        intro k hk
        rw [Nat.add_right_comm]
        exact h (k + 1) hk
      rw [bestFrom, bestFrom]
      by_cases hhealthy : upstream.healthy = true
      · have hi : c i = c' i := h 0 hhealthy
        rw [hi]
        exact ih hrest _
      · rw [if_neg fun hbest => hhealthy hbest.1, if_neg fun hbest => hhealthy hbest.1]
        exact ih hrest _

theorem bestFrom_spec (upstreams : List GwUpstream) (i : Nat) (c : Nat → Int)
    (best : Option Nat × Int) :
    best.2 ≤ (bestFrom upstreams i c best).2 ∧
      (∀ k, healthyAt upstreams k = true → c (i + k) ≤ (bestFrom upstreams i c best).2) ∧
      (bestFrom upstreams i c best = best ∨
        ∃ k, healthyAt upstreams k = true ∧
          bestFrom upstreams i c best = (some (i + k), c (i + k))) := by
  induction upstreams generalizing i best with
  | nil => exact ⟨le_rfl, fun k hk => absurd hk (by simp [healthyAt]), Or.inl rfl⟩
  | cons upstream upstreams ih =>
      rw [bestFrom]
      obtain ⟨hle, hall, hfound⟩ :=
        ih (i + 1) (if upstream.healthy ∧ best.2 < c i then (some i, c i) else best)
      refine ⟨?_, ?_, ?_⟩
      · apply le_trans _ hle
        split
        next hbetter => exact le_of_lt hbetter.2
        next => exact le_rfl
      · intro k hk
        cases k with
        | zero =>
            have hhealthy : upstream.healthy = true := hk
            apply le_trans _ hle
            by_cases hbetter : best.2 < c i
            · rw [if_pos ⟨hhealthy, hbetter⟩]
              exact le_rfl
            · rw [if_neg fun h => hbetter h.2]
              exact Int.not_lt.mp hbetter
        | succ k =>
            rw [Nat.add_comm k, ← Nat.add_assoc]
            exact hall k hk
      · rcases hfound with hsame | ⟨k, hk, hbest⟩
        · rw [hsame]
          split
          next hbetter => exact Or.inr ⟨0, hbetter.1, rfl⟩
          next => exact Or.inl rfl
        · refine Or.inr ⟨k + 1, hk, ?_⟩
          rw [hbest, Nat.add_right_comm, Nat.add_assoc]

def grownFrom (w : Nat → Nat) (c current : Nat → Int) (i n j : Nat) : Int :=
  if i ≤ j ∧ j < n then grown w c j else current j

theorem grownFrom_succ {w : Nat → Nat} {c current : Nat → Int} {i n : Nat} (h : i < n) :
    grownFrom w c (Function.update current i (grown w c i)) (i + 1) n =
      grownFrom w c current i n := by
  funext j
  unfold grownFrom
  by_cases hj : j = i
  · rw [hj, if_neg fun hle => absurd hle.1 (Nat.not_succ_le_self i), if_pos ⟨le_rfl, h⟩,
      Function.update_self]
  · have hiff : i + 1 ≤ j ∧ j < n ↔ i ≤ j ∧ j < n := by omega
    rw [Function.update_of_ne hj]
    simp only [hiff]

theorem swrrLoop_spec {upstreams : List GwUpstream} {i : Nat} {w : Nat → Nat} {c : Nat → Int}
    {scan : SwrrScan}
    (hweights : ∀ upstream ∈ upstreams, upstream.healthy = true → 0 < upstream.weight)
    (hw : ∀ k, w (i + k) = weightAt upstreams k)
    (hc : ∀ j ≥ i, scan.currentWeights j = c j)
    (hrange : ∀ k, healthyAt upstreams k = true →
      i + k < weightCount ∧ IsInt (grown w c (i + k)))
    (hnonneg : 0 ≤ scan.totalWeight)
    (htotal : IsInt (scan.totalWeight +
      (((List.range' i upstreams.length).map w).sum : Nat))) :
    swrrLoop upstreams i scan = some
      { currentWeights := grownFrom w c scan.currentWeights i (i + upstreams.length)
        bestIdx := (bestFrom upstreams i (grown w c) (scan.bestIdx, scan.bestWeight)).1
        bestWeight := (bestFrom upstreams i (grown w c) (scan.bestIdx, scan.bestWeight)).2
        totalWeight := scan.totalWeight +
          (((List.range' i upstreams.length).map w).sum : Nat) } := by
  induction upstreams generalizing i scan with
  | nil =>
      have hnone : grownFrom w c scan.currentWeights i i = scan.currentWeights := by
        funext j
        exact if_neg (by omega)
      rw [swrrLoop, List.length_nil, Nat.add_zero, hnone]
      apply congrArg some
      ext
      · rfl
      · rfl
      · rfl
      · exact (Int.add_zero _).symm
  | cons upstream upstreams ih =>
      obtain ⟨hweight, hweights⟩ := List.forall_mem_cons.mp hweights
      have hw' : ∀ k, w (i + 1 + k) = weightAt upstreams k := by
        intro k
        rw [Nat.add_assoc, Nat.add_comm 1]
        exact hw (k + 1)
      have hrange' : ∀ k, healthyAt upstreams k = true →
          i + 1 + k < weightCount ∧ IsInt (grown w c (i + 1 + k)) := by
        intro k hk
        rw [Nat.add_assoc, Nat.add_comm 1]
        exact hrange (k + 1) hk
      have hstep := @grownFrom_succ w c scan.currentWeights i (i + (upstreams.length + 1))
        (by omega)
      have hlength : i + (upstreams.length + 1) = i + 1 + upstreams.length := by omega
      have hshare : w i = weightOf upstream := hw 0
      have hci : scan.currentWeights i = c i := hc i le_rfl
      rw [List.length_cons, List.range'_succ, List.map_cons, List.sum_cons, Nat.cast_add,
        ← Int.add_assoc] at htotal ⊢
      rw [← hstep, hlength, swrrLoop, bestFrom]
      obtain ⟨hlow, hhigh⟩ := htotal
      by_cases hhealthy : upstream.healthy = true
      · have hwi : upstream.weight = w i := by
          rw [hshare, weightOf, if_pos hhealthy]
          exact (Int.toNat_of_nonneg (le_of_lt (hweight hhealthy))).symm
        have hgrown : scan.currentWeights i + w i = grown w c i := by rw [hci, grown]
        obtain ⟨hindex, hint⟩ := hrange 0 hhealthy
        rw [if_pos hhealthy, hwi, hgrown]
        dsimp only
        rw [if_pos ⟨hindex, hint, ⟨by omega, by omega⟩⟩]
        have hc' : ∀ j ≥ i + 1,
            Function.update scan.currentWeights i (grown w c i) j = c j := by
          intro j hj
          rw [Function.update_of_ne (Nat.ne_of_gt hj)]
          exact hc j (Nat.le_of_succ_le hj)
        by_cases hbetter : scan.bestWeight < grown w c i
        · rw [if_pos hbetter, if_pos ⟨hhealthy, hbetter⟩]
          exact ih hweights hw' hc' hrange' (by dsimp only; omega) ⟨hlow, hhigh⟩
        · rw [if_neg hbetter, if_neg fun h => hbetter h.2]
          exact ih hweights hw' hc' hrange' (by dsimp only; omega) ⟨hlow, hhigh⟩
      · have hwi : w i = 0 := by rw [hshare, weightOf, if_neg hhealthy]
        have hsame : Function.update scan.currentWeights i (grown w c i) =
            scan.currentWeights := by
          rw [grown, hwi, Nat.cast_zero, Int.add_zero, ← hci, Function.update_eq_self]
        rw [if_neg hhealthy, if_neg fun hbest => hhealthy hbest.1, hsame, hwi, Nat.cast_zero,
          Int.add_zero]
        rw [hwi, Nat.cast_zero, Int.add_zero] at hlow hhigh
        exact ih hweights hw' (fun j hj => hc j (Nat.le_of_succ_le hj)) hrange' hnonneg
          ⟨hlow, hhigh⟩

/-! ## One selection -/

def bestIndex (upstreams : List GwUpstream) (c : Nat → Int) : Nat :=
  (bestFrom upstreams 0 c (none, -1)).1.getD 0

def credits (upstreams : List GwUpstream) : Nat → Nat → Int :=
  creditAt (healthyIndices upstreams) (weightAt upstreams) (bestIndex upstreams)

def turns (upstreams : List GwUpstream) : Nat → Nat :=
  pickAt (healthyIndices upstreams) (weightAt upstreams) (bestIndex upstreams)

theorem mem_healthyIndices {upstreams : List GwUpstream} {i : Nat} :
    i ∈ healthyIndices upstreams ↔ healthyAt upstreams i = true := by
  rw [healthyIndices, Finset.mem_filter, Finset.mem_range, and_iff_right_iff_imp]
  intro hhealthy
  unfold healthyAt at hhealthy
  cases hget : upstreams[i]? with
  | none => simp [hget] at hhealthy
  | some upstream => exact (List.getElem?_eq_some_iff.mp hget).1

theorem weightAt_of_not_mem {upstreams : List GwUpstream} {i : Nat}
    (h : i ∉ healthyIndices upstreams) : weightAt upstreams i = 0 := by
  rw [mem_healthyIndices] at h
  unfold healthyAt at h
  unfold weightAt
  cases hget : upstreams[i]? with
  | none => rfl
  | some upstream =>
      rw [hget, Option.any_some] at h
      rw [Option.map_some, Option.getD_some, weightOf, if_neg h]

theorem weightSum_eq (upstreams : List GwUpstream) :
    weightSum upstreams =
      ((List.range' 0 upstreams.length).map (weightAt upstreams)).sum := by
  have hrange : ∀ n, ((List.range' 0 n).map (weightAt upstreams)).sum =
      ∑ i ∈ Finset.range n, weightAt upstreams i := by
    intro n
    induction n with
    | zero => rfl
    | succ n ih =>
        rw [List.range'_1_concat, List.map_append, List.sum_append, ih, Finset.sum_range_succ]
        simp
  rw [hrange, weightSum, totalWeight]
  exact Finset.sum_filter_of_ne fun i _ hne => mem_healthyIndices.mp (by
    by_contra hnot
    exact hne (weightAt_of_not_mem hnot))

theorem weightAt_of_weightSum {upstreams : List GwUpstream} (h : weightSum upstreams = 0)
    (i : Nat) : weightAt upstreams i = 0 := by
  have hsum : ∑ i ∈ healthyIndices upstreams, weightAt upstreams i = 0 := h
  by_cases hi : i ∈ healthyIndices upstreams
  · exact Finset.sum_eq_zero_iff.mp hsum i hi
  · exact weightAt_of_not_mem hi

theorem bestIndex_spec {upstreams : List GwUpstream} {c : Nat → Int}
    (h : 0 < ∑ i ∈ healthyIndices upstreams, c i) :
    (bestFrom upstreams 0 c (none, -1)).1 = some (bestIndex upstreams c) ∧
      bestIndex upstreams c ∈ healthyIndices upstreams ∧ 0 < c (bestIndex upstreams c) := by
  obtain ⟨i, hi, hpos⟩ : ∃ i ∈ healthyIndices upstreams, 0 < c i := by
    by_contra hnone
    apply absurd h (Int.not_lt.mpr (Finset.sum_nonpos _))
    exact fun i hi => Int.not_lt.mp fun hpos => hnone ⟨i, hi, hpos⟩
  obtain ⟨_, hall, hfound⟩ := bestFrom_spec upstreams 0 c (none, -1)
  have hle := hall i (mem_healthyIndices.mp hi)
  rw [Nat.zero_add] at hle
  unfold bestIndex
  rcases hfound with hsame | ⟨k, hk, hbest⟩
  · rw [hsame] at hle
    dsimp only at hle
    omega
  · rw [hbest, Nat.zero_add] at hle ⊢
    exact ⟨rfl, mem_healthyIndices.mpr hk, lt_of_lt_of_le hpos hle⟩

theorem afterTurn_congr {upstreams : List GwUpstream} {c c' : Nat → Int}
    (h : ∀ i ∈ healthyIndices upstreams, c i = c' i) :
    bestIndex upstreams (grown (weightAt upstreams) c) =
        bestIndex upstreams (grown (weightAt upstreams) c') ∧
      ∀ i ∈ healthyIndices upstreams,
        afterTurn (healthyIndices upstreams) (weightAt upstreams) (bestIndex upstreams) c i =
          afterTurn (healthyIndices upstreams) (weightAt upstreams) (bestIndex upstreams) c'
            i := by
  have hgrown : ∀ i ∈ healthyIndices upstreams,
      grown (weightAt upstreams) c i = grown (weightAt upstreams) c' i := by
    intro i hi
    rw [grown, grown, h i hi]
  have hbest : bestIndex upstreams (grown (weightAt upstreams) c) =
      bestIndex upstreams (grown (weightAt upstreams) c') := by
    unfold bestIndex
    rw [bestFrom_congr]
    intro k hk
    rw [Nat.zero_add]
    exact hgrown k (mem_healthyIndices.mpr hk)
  refine ⟨hbest, ?_⟩
  intro i hi
  rw [afterTurn, afterTurn, hbest]
  by_cases hpicked : i = bestIndex upstreams (grown (weightAt upstreams) c')
  · rw [← hpicked, Function.update_self, Function.update_self, hgrown i hi]
  · rw [Function.update_of_ne hpicked, Function.update_of_ne hpicked, hgrown i hi]

section

variable {upstream : GwUpstream} {rest : List GwUpstream} {current : Nat → Int}
  (hweights : ∀ u ∈ upstream :: rest, u.healthy = true → 0 < u.weight)
  (hsum : IsInt (weightSum (upstream :: rest)))
  (hrange : ∀ i ∈ healthyIndices (upstream :: rest),
    i < weightCount ∧ IsInt (current i + weightAt (upstream :: rest) i))

include hweights hsum hrange

theorem swrrLoop_start : swrrLoop (upstream :: rest) 0 ⟨current, none, -1, 0⟩ = some
    ⟨grown (weightAt (upstream :: rest)) current,
      (bestFrom (upstream :: rest) 0 (grown (weightAt (upstream :: rest)) current)
        (none, -1)).1,
      (bestFrom (upstream :: rest) 0 (grown (weightAt (upstream :: rest)) current)
        (none, -1)).2,
      weightSum (upstream :: rest)⟩ := by
  have hgrown : grownFrom (weightAt (upstream :: rest)) current current 0
      (0 + (upstream :: rest).length) = grown (weightAt (upstream :: rest)) current := by
    funext j
    unfold grownFrom
    split
    · rfl
    next hout =>
      have hmem : j ∉ healthyIndices (upstream :: rest) := by
        intro hj
        rw [healthyIndices, Finset.mem_filter, Finset.mem_range] at hj
        exact hout ⟨Nat.zero_le j, by omega⟩
      rw [grown, weightAt_of_not_mem hmem, Nat.cast_zero, Int.add_zero]
  rw [swrrLoop_spec hweights (fun k => by rw [Nat.zero_add]) (fun _ _ => rfl) ?_ le_rfl ?_,
    hgrown, ← weightSum_eq, Int.zero_add]
  · intro k hk
    rw [Nat.zero_add]
    exact hrange k (mem_healthyIndices.mpr hk)
  · rw [Int.zero_add, ← weightSum_eq]
    exact hsum

theorem select_none {gateway : GwGateway} {service : CStr}
    (hfind : findUpstreams gateway service = some (upstream :: rest))
    (hzero : weightSum (upstream :: rest) = 0) :
    gwUpstreamSelectSwrr gateway current service = some (none, current) := by
  have hshare := weightAt_of_weightSum hzero
  have hgrown : grown (weightAt (upstream :: rest)) current = current := by
    funext i
    rw [grown, hshare, Nat.cast_zero, Int.add_zero]
  have hbest : (bestFrom (upstream :: rest) 0 current (none, -1)).1 = none := by
    obtain ⟨_, _, hsame | ⟨k, hk, _⟩⟩ := bestFrom_spec (upstream :: rest) 0 current (none, -1)
    · rw [hsame]
    · -- a healthy upstream would have a share
      have hk' := hk
      unfold healthyAt at hk'
      cases hget : (upstream :: rest)[k]? with
      | none => simp [hget] at hk'
      | some u =>
          rw [hget, Option.any_some] at hk'
          have hpos := hweights u (List.mem_of_getElem? hget) hk'
          have hk0 := hshare k
          rw [weightAt, hget, Option.map_some, Option.getD_some, weightOf, if_pos hk'] at hk0
          omega
  rw [gwUpstreamSelectSwrr, hfind]
  dsimp only
  rw [swrrLoop_start hweights hsum hrange, hgrown, hbest]
  rfl

theorem select_some {gateway : GwGateway} {service : CStr}
    (hfind : findUpstreams gateway service = some (upstream :: rest))
    (hpos : 0 < weightSum (upstream :: rest))
    (hzero : ∑ i ∈ healthyIndices (upstream :: rest), current i = 0) :
    gwUpstreamSelectSwrr gateway current service = some
      (some (bestIndex (upstream :: rest) (grown (weightAt (upstream :: rest)) current)),
        afterTurn (healthyIndices (upstream :: rest)) (weightAt (upstream :: rest))
          (bestIndex (upstream :: rest)) current) := by
  have hsum' : ∑ i ∈ healthyIndices (upstream :: rest),
      grown (weightAt (upstream :: rest)) current i = weightSum (upstream :: rest) :=
    sum_grown hzero
  have hgrown : 0 < ∑ i ∈ healthyIndices (upstream :: rest),
      grown (weightAt (upstream :: rest)) current i := by
    rw [hsum']
    exact_mod_cast hpos
  obtain ⟨hbest, hmem, hbestpos⟩ := bestIndex_spec hgrown
  have hint := (hrange _ hmem).2
  have hne : (weightSum (upstream :: rest) : Int) ≠ 0 := by omega
  rw [gwUpstreamSelectSwrr, hfind]
  dsimp only
  rw [swrrLoop_start hweights hsum hrange, hbest]
  dsimp only [Option.bind_some]
  rw [if_neg hne, if_pos]
  · rfl
  · rw [grown] at hbestpos ⊢
    obtain ⟨_, hhigh⟩ := hint
    obtain ⟨_, hhigh'⟩ := hsum
    exact ⟨by omega, by omega⟩

end

/-! ## Runs -/

def InTurn (gateway : GwGateway) (s : System) : Prop :=
  ∀ service, ∀ upstreams ∈ findUpstreams gateway service,
    s.picks service = (List.range' 0 (s.picks service).length).map (turns upstreams) ∧
      ∀ i ∈ healthyIndices upstreams,
        s.own service i = credits upstreams (s.picks service).length i

/-- Weights as the claim of a proportional selection supposes them. -/
def PositiveWeights (gateway : GwGateway) : Prop :=
  ∀ svc ∈ gateway.services, ∀ u ∈ svc.upstreams, u.healthy = true → 0 < u.weight

instance decidablePositiveWeights (gateway : GwGateway) : Decidable (PositiveWeights gateway) :=
  inferInstanceAs (Decidable (∀ svc ∈ gateway.services, ∀ u ∈ svc.upstreams, _ → _))

theorem PositiveWeights.find {gateway : GwGateway} (h : PositiveWeights gateway)
    {service : CStr} {upstreams : List GwUpstream}
    (hfind : findUpstreams gateway service = some upstreams) :
    ∀ u ∈ upstreams, u.healthy = true → 0 < u.weight := by
  obtain ⟨svc, hsvc, rfl⟩ := Option.map_eq_some_iff.mp hfind
  exact h svc (List.mem_of_find?_eq_some hsvc)

theorem inTurn_init (gateway : GwGateway) : InTurn gateway init := by
  intro service upstreams _
  exact ⟨rfl, fun _ _ => rfl⟩

theorem turn_spec {upstreams : List GwUpstream} {current : Nat → Int} {k : Nat}
    (hpos : 0 < weightSum upstreams)
    (hcurrent : ∀ i ∈ healthyIndices upstreams, current i = credits upstreams k i) :
    ∑ i ∈ healthyIndices upstreams, current i = 0 ∧
      bestIndex upstreams (grown (weightAt upstreams) current) = turns upstreams k ∧
      ∀ i ∈ healthyIndices upstreams,
        afterTurn (healthyIndices upstreams) (weightAt upstreams) (bestIndex upstreams) current
          i = credits upstreams (k + 1) i := by
  refine ⟨?_, afterTurn_congr hcurrent⟩
  rw [Finset.sum_congr rfl hcurrent]
  exact sum_creditAt hpos (fun c hc => (bestIndex_spec hc).2) k

theorem InTurn.select {gateway : GwGateway} (hweights : PositiveWeights gateway) {s : System}
    {service : CStr} (h : InTurn gateway s) (hkept : Kept gateway s service) :
    ∃ s', step gateway s service = some s' ∧ InTurn gateway s' := by
  have hunchanged : gwUpstreamSelectSwrr gateway s.currentWeights service =
      some (none, s.currentWeights) → ∃ s', step gateway s service = some s' ∧
        InTurn gateway s' := by
    intro hnone
    refine ⟨s, ?_, h⟩
    rw [step, hnone]
    rfl
  cases hfind : findUpstreams gateway service with
  | none =>
      apply hunchanged
      rw [gwUpstreamSelectSwrr, hfind]
  | some upstreams =>
      cases upstreams with
      | nil =>
          apply hunchanged
          rw [gwUpstreamSelectSwrr, hfind]
      | cons upstream rest =>
          obtain ⟨hsum, hindices⟩ := hkept _ hfind
          obtain ⟨hpicks, hown⟩ := h service _ hfind
          have hrange := fun i hi => (hindices i hi).2
          have hu := hweights.find hfind
          rcases Nat.eq_zero_or_pos (weightSum (upstream :: rest)) with hzero | hpos
          · exact hunchanged (select_none hu hsum hrange hfind hzero)
          · obtain ⟨hbalance, hturn, hnext⟩ := turn_spec hpos fun i hi =>
              (hindices i hi).1.trans (hown i hi)
            have hselect := select_some hu hsum hrange hfind hpos hbalance
            rw [hturn] at hselect
            refine ⟨_, congrArg (Option.map _) hselect, ?_⟩
            intro other upstreams' hother
            dsimp only
            by_cases hsame : other = service
            · subst hsame
              rw [hfind, Option.mem_some_iff] at hother
              subst hother
              rw [Function.update_self, Function.update_self, List.length_append,
                List.length_singleton, List.range'_1_concat, List.map_append, ← hpicks]
              refine ⟨?_, hnext⟩
              rw [Nat.zero_add]
              rfl
            · rw [Function.update_of_ne hsame, Function.update_of_ne hsame]
              exact h other upstreams' hother

/-- A run is proportional if each selection finds the weights that the last selection for its
service left. -/
theorem selections_proportional {gateway : GwGateway} (hweights : PositiveWeights gateway)
    {services : List CStr} (hkept : AlwaysOption (step gateway) (Kept gateway) init services) :
    ∃ s, runOption (step gateway) init services = some s ∧ Proportional gateway s := by
  obtain ⟨s, hrun, hs⟩ := runOption_invariant (step gateway)
    (fun _ _ h hk => h.select hweights hk) (inTurn_init gateway) hkept
  refine ⟨s, hrun, ?_⟩
  intro service upstreams hfind a ha i
  obtain ⟨hpicks, _⟩ := hs service upstreams hfind
  rcases Nat.eq_zero_or_pos (weightSum upstreams) with hzero | hpos
  · rw [hzero, weightAt_of_weightSum hzero, List.take_zero, List.count_nil]
  · have hwindow : ((s.picks service).drop a).take (weightSum upstreams) =
        (List.range' a (weightSum upstreams)).map (turns upstreams) := by
      have hlength : weightSum upstreams ≤ (s.picks service).length - a := by omega
      rw [hpicks, ← List.map_drop, ← List.map_take, List.drop_range', Nat.zero_add,
        Nat.mul_one, List.take_range'_of_length_ge hlength]
    rw [hwindow]
    exact count_window hpos (fun c hc => (bestIndex_spec hc).2)
      (fun j hj => weightAt_of_not_mem hj) a i

def upstreamOf (host : String) (weight : Int) : GwUpstream := ⟨lit host, 80, weight, 10, 0, true⟩

/-- Two services with two upstreams each. -/
def twoServices : GwGateway where
  services :=
    [⟨lit "a", [upstreamOf "a1" 2, upstreamOf "a2" 1]⟩,
      ⟨lit "b", [upstreamOf "b1" 1, upstreamOf "b2" 1]⟩]

/-- After its three selections `a` leaves the weights as it found them. -/
theorem selections_proportional_aaabba :
    ∃ s, runOption (step twoServices) init
        (["a", "a", "a", "b", "b", "a"].map lit) = some s ∧ Proportional twoServices s :=
  selections_proportional (by decide) (by decide)

/-- A selection of `a` in between makes `b` select its first upstream twice in a row. -/
theorem selections_bab :
    ∃ s, runOption (step twoServices) init (["b", "a", "b"].map lit) = some s ∧
      s.picks (lit "b") = [0, 0] ∧ ¬ Proportional twoServices s := by
  refine ⟨(runOption (step twoServices) init (["b", "a", "b"].map lit)).get (by decide),
    (Option.some_get _).symm, by decide, ?_⟩
  intro hproportional
  have hcount := hproportional (lit "b") _ rfl 0 (by decide) 0
  exact absurd hcount (by decide)

end MiniBackend.Infra.Proofs.SmoothSelection
