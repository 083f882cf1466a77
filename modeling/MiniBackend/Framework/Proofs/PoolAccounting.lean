import MiniBackend.Lib.Runs
import MiniBackend.Framework.Pool
import Mathlib.Data.Multiset.Filter
import Mathlib.Algebra.Order.Group.Multiset
import Mathlib.Tactic.Abel

/-!
# The accounts of a pool

The resources that a pool has opened and not closed sit in its slots, those in use with a
holder.  `in_use` counts the held ones.  `idle_count` is to count the others, but an
acquisition that finds an idle resource does not take it off: the counter is ahead by the
number of such acquisitions, for ever.
-/

namespace MiniBackend.Framework.Proofs.PoolAccounting

open MiniBackend.Lib.CArray MiniBackend.Lib.Runs MiniBackend.Framework.ResourcePool

def busyResource (slot : PoolSlot) : Option Resource :=
  if slot.inUse then slot.resource else none

def resources (f : PoolSlot → Option Resource) (pool : Pool) : Multiset Resource :=
  ((List.range pool.capacity).filterMap fun i => f (pool.slots i) : List Resource)

structure Accounted (client : Client) : Prop where
  exclusive : client.held.Nodup
  alive : ∀ resource ∈ client.held, resource ∉ client.pool.closed
  inUse_eq : client.pool.inUse = client.held.length
  idleCount_eq : client.pool.idleCount = (client.pool.opened.filter fun resource =>
    resource ∉ client.pool.closed ∧ resource ∉ client.held).length
  within : client.pool.inUse + client.pool.idleCount ≤ client.pool.capacity

/-- The call returns and leaves right accounts. -/
def CallHolds (client : Client) (op : Op) : Prop :=
  ∃ client', step client op = some client' ∧ Accounted client'

/-- What `create_fn` returns in the call is new. -/
def FreshAnswers (client : Client) : Op → Prop
  | .acquire answers => ∀ resource ∈ answers.create, resource ∉ client.pool.opened
  | .prewarm _ create => ∀ i < client.pool.capacity, ∀ resource ∈ create i,
      resource ∉ client.pool.opened ∧ ∀ j < client.pool.capacity, resource ∈ create j → j = i
  | .release _ | .sweepIdle _ => True

instance (client : Client) (op : Op) : Decidable (FreshAnswers client op) :=
  match op with
  | .acquire answers => inferInstanceAs (Decidable (∀ resource ∈ answers.create,
      resource ∉ client.pool.opened))
  | .prewarm _ create => inferInstanceAs (Decidable (∀ i < client.pool.capacity,
      ∀ resource ∈ create i, resource ∉ client.pool.opened ∧
        ∀ j < client.pool.capacity, resource ∈ create j → j = i))
  | .release _ | .sweepIdle _ => .isTrue trivial

/-- An acquisition finds no idle resource that is valid. -/
def NeverReuses (client : Client) : Op → Prop
  | .acquire answers => ∀ i < client.pool.capacity,
      ∀ resource ∈ idleResource (client.pool.slots i),
        client.pool.validateFn = true ∧ answers.validate resource = false
  | .release _ | .sweepIdle _ | .prewarm .. => True

instance (client : Client) (op : Op) : Decidable (NeverReuses client op) :=
  match op with
  | .acquire answers => inferInstanceAs (Decidable (∀ i < client.pool.capacity,
      ∀ resource ∈ idleResource (client.pool.slots i),
        client.pool.validateFn = true ∧ answers.validate resource = false))
  | .release _ | .sweepIdle _ | .prewarm .. => .isTrue trivial

structure Ledger (pool : Pool) (held : List Resource) (surplus : Nat) : Prop where
  ready : pool.initialized = true
  given : pool.opened ≠ [] → pool.createFn = true
  opened_nodup : pool.opened.Nodup
  opened_eq : (pool.opened : Multiset Resource) =
    pool.closed + (resources busyResource pool + resources idleResource pool)
  held_eq : (held : Multiset Resource) = resources busyResource pool
  occupied : ∀ i < pool.capacity, (pool.slots i).inUse = true → (pool.slots i).resource ≠ none
  inUse_eq : pool.inUse = held.length
  idleCount_eq : pool.idleCount = (resources idleResource pool).card + surplus

/-! ## Slots -/

section

variable {pool : Pool} {held : List Resource} {surplus i : Nat} {resource : Resource}

theorem resources_setSlot (f : PoolSlot → Option Resource) (hi : i < pool.capacity) :
    ∃ rest, resources f pool = (f (pool.slots i)).toList + rest ∧
      ∀ slot, resources f (setSlot pool i slot) = (f slot).toList + rest := by
  have hsplit : ∀ slots : Nat → PoolSlot,
      (((List.range pool.capacity).filterMap fun j => f (slots j) : List Resource) :
        Multiset Resource) = (f (slots i)).toList +
          (((List.range pool.capacity).erase i).filterMap fun j => f (slots j) :
            List Resource) := by
    intro slots
    have hperm := List.perm_cons_erase (List.mem_range.mpr hi)
    rw [Multiset.coe_add, Multiset.coe_eq_coe]
    apply (hperm.filterMap _).trans
    rw [List.filterMap_cons]
    cases f (slots i) <;> exact List.Perm.refl _
  refine ⟨_, hsplit pool.slots, ?_⟩
  intro slot
  have hrest : ((List.range pool.capacity).erase i).filterMap
      (fun j => f (Function.update pool.slots i slot j)) =
        ((List.range pool.capacity).erase i).filterMap fun j => f (pool.slots j) := by
    apply List.filterMap_congr
    intro j hj
    have hne : j ≠ i := (List.nodup_range.mem_erase_iff.mp hj).1
    rw [Function.update_of_ne hne]
  rw [← hrest]
  have hslots := hsplit (Function.update pool.slots i slot)
  rw [Function.update_self] at hslots
  exact hslots

theorem idleResource_eq_some {slot : PoolSlot} :
    idleResource slot = some resource ↔ slot = ⟨some resource, false⟩ := by
  obtain ⟨r, used⟩ := slot
  cases used <;> simp [idleResource]

theorem mem_idle (hi : i < pool.capacity) (h : pool.slots i = ⟨some resource, false⟩) :
    resource ∈ resources idleResource pool :=
  List.mem_filterMap.mpr ⟨i, List.mem_range.mpr hi, idleResource_eq_some.mpr h⟩

/-! ## The ledger -/

theorem Ledger.empty_slot (h : Ledger pool held surplus) (hi : i < pool.capacity)
    (hempty : (pool.slots i).resource = none) : pool.slots i = ⟨none, false⟩ := by
  have hfree : (pool.slots i).inUse = false := by
    by_contra hused
    exact h.occupied i hi (by simpa using hused) hempty
  rw [← hempty, ← hfree]

theorem occupied_setSlot (h : ∀ j < pool.capacity, (pool.slots j).inUse = true →
      (pool.slots j).resource ≠ none) {slot : PoolSlot}
    (hslot : slot.inUse = true → slot.resource ≠ none) :
    ∀ j < pool.capacity, ((setSlot pool i slot).slots j).inUse = true →
      ((setSlot pool i slot).slots j).resource ≠ none := by
  intro j hj
  change (Function.update pool.slots i slot j).inUse = true →
    (Function.update pool.slots i slot j).resource ≠ none
  by_cases heq : j = i
  · subst heq
    rw [Function.update_self]
    exact hslot
  · rw [Function.update_of_ne heq]
    exact h j hj

theorem Ledger.write (h : Ledger pool held surplus) (hi : i < pool.capacity) {slot : PoolSlot}
    {held' opened closed : List Resource} {surplus' : Nat} {inUse idleCount : Int}
    (hslot : slot.inUse = true → slot.resource ≠ none)
    (hgiven : opened ≠ [] → pool.createFn = true) (hnodup : (pool.opened ++ opened).Nodup)
    (hopened : (closed : Multiset Resource) +
        ((busyResource slot).toList + (idleResource slot).toList) =
      opened + ((busyResource (pool.slots i)).toList + (idleResource (pool.slots i)).toList))
    (hheld : (held' : Multiset Resource) + (busyResource (pool.slots i)).toList =
      held + (busyResource slot).toList)
    (hinUse : inUse = held'.length)
    (hcount : idleCount + (idleResource (pool.slots i)).toList.length + surplus =
      pool.idleCount + (idleResource slot).toList.length + surplus') :
    Ledger { setSlot pool i slot with
        inUse := inUse
        idleCount := idleCount
        opened := pool.opened ++ opened
        closed := pool.closed ++ closed } held' surplus' := by
  obtain ⟨rest, hbusy, hbusy'⟩ := resources_setSlot busyResource hi
  obtain ⟨rest', hidle, hidle'⟩ := resources_setSlot idleResource hi
  refine ⟨h.ready, ?_, hnodup, ?_, ?_, occupied_setSlot h.occupied hslot, hinUse, ?_⟩
  · intro hne
    by_cases hnew : opened = []
    · apply h.given
      intro hold
      apply hne
      rw [hold, hnew]
      rfl
    · exact hgiven hnew
  · change ((pool.opened ++ opened : List Resource) : Multiset Resource) =
      (pool.closed ++ closed : List Resource) + (resources busyResource (setSlot pool i slot) +
        resources idleResource (setSlot pool i slot))
    rw [hbusy', hidle', ← Multiset.coe_add, ← Multiset.coe_add, h.opened_eq, hbusy, hidle]
    calc
      _ = pool.closed + (rest + rest') + (opened + ((busyResource (pool.slots i)).toList +
          (idleResource (pool.slots i)).toList)) := by abel
      _ = pool.closed + (rest + rest') + (closed + ((busyResource slot).toList +
          (idleResource slot).toList)) := by rw [hopened]
      _ = _ := by abel
  · change (held' : Multiset Resource) = resources busyResource (setSlot pool i slot)
    rw [hbusy']
    apply add_right_cancel (b := ((busyResource (pool.slots i)).toList : Multiset Resource))
    rw [hheld, h.held_eq, hbusy]
    abel
  · change idleCount = (resources idleResource (setSlot pool i slot)).card + surplus'
    have hold := h.idleCount_eq
    rw [hidle, Multiset.card_add, Multiset.coe_card] at hold
    rw [hidle', Multiset.card_add, Multiset.coe_card]
    omega

theorem Ledger.closeSlot (h : Ledger pool held surplus) (hi : i < pool.capacity)
    (hslot : pool.slots i = ⟨some resource, false⟩) :
    Ledger (closeSlot pool i resource) held surplus := by
  have hwrite : ResourcePool.closeSlot pool i resource =
      { setSlot pool i ⟨none, false⟩ with
        inUse := pool.inUse
        idleCount := pool.idleCount - 1
        opened := pool.opened ++ []
        closed := pool.closed ++ [resource] } := by
    simp [ResourcePool.closeSlot, hslot, setSlot]
  rw [hwrite]
  apply h.write hi
  · simp
  · simp
  · simpa using h.opened_nodup
  · simp [hslot, busyResource, idleResource]
  · simp [hslot, busyResource]
  · exact h.inUse_eq
  · simp [hslot, idleResource]

theorem Ledger.warmSlot (h : Ledger pool held surplus) (hcreate : pool.createFn = true)
    (hi : i < pool.capacity) (hempty : (pool.slots i).resource = none)
    (hnew : resource ∉ pool.opened) : Ledger (warmSlot pool i resource) held surplus := by
  have hslot := h.empty_slot hi hempty
  have hwrite : ResourcePool.warmSlot pool i resource =
      { setSlot pool i ⟨some resource, false⟩ with
        inUse := pool.inUse
        idleCount := pool.idleCount + 1
        opened := pool.opened ++ [resource]
        closed := pool.closed ++ [] } := by
    simp [ResourcePool.warmSlot, openSlot, setSlot]
  rw [hwrite]
  apply h.write hi
  · simp
  · exact fun _ => hcreate
  · simpa using h.opened_nodup.concat hnew
  · simp [hslot, busyResource, idleResource]
  · simp [hslot, busyResource]
  · exact h.inUse_eq
  · simp [hslot, idleResource]

theorem Ledger.takeNew (h : Ledger pool held surplus) (hcreate : pool.createFn = true)
    (hi : i < pool.capacity) (hempty : (pool.slots i).resource = none)
    (hnew : resource ∉ pool.opened) :
    Ledger (takeSlot (openSlot pool i resource) i) (resource :: held) surplus := by
  have hslot := h.empty_slot hi hempty
  have hwrite : takeSlot (openSlot pool i resource) i =
      { setSlot pool i ⟨some resource, true⟩ with
        inUse := pool.inUse + 1
        idleCount := pool.idleCount
        opened := pool.opened ++ [resource]
        closed := pool.closed ++ [] } := by
    simp [takeSlot, openSlot, setSlot]
  rw [hwrite]
  apply h.write hi
  · simp
  · exact fun _ => hcreate
  · simpa using h.opened_nodup.concat hnew
  · simp [hslot, busyResource, idleResource]
  · have hcons : ((resource :: held : List Resource) : Multiset Resource) = held + {resource} := by
      rw [← Multiset.cons_coe, ← Multiset.singleton_add, add_comm]
    simpa [hslot, busyResource] using hcons
  · simp [h.inUse_eq]
  · simp [hslot, idleResource]

theorem Ledger.takeIdle (h : Ledger pool held surplus) (hi : i < pool.capacity)
    (hslot : pool.slots i = ⟨some resource, false⟩) :
    Ledger (takeSlot pool i) (resource :: held) (surplus + 1) := by
  have hwrite : takeSlot pool i =
      { setSlot pool i ⟨some resource, true⟩ with
        inUse := pool.inUse + 1
        idleCount := pool.idleCount
        opened := pool.opened ++ []
        closed := pool.closed ++ [] } := by
    simp [takeSlot, hslot, setSlot]
  rw [hwrite]
  apply h.write hi
  · simp
  · simp
  · simpa using h.opened_nodup
  · simp [hslot, busyResource, idleResource]
  · have hcons : ((resource :: held : List Resource) : Multiset Resource) = held + {resource} := by
      rw [← Multiset.cons_coe, ← Multiset.singleton_add, add_comm]
    simpa [hslot, busyResource] using hcons
  · simp [h.inUse_eq]
  · simp [hslot, idleResource]
    omega

theorem Ledger.releaseSlot (h : Ledger pool held surplus) (hi : i < pool.capacity)
    (hslot : pool.slots i = ⟨some resource, true⟩) :
    Ledger (releaseSlot pool i) (held.erase resource) surplus := by
  have hwrite : ResourcePool.releaseSlot pool i =
      { setSlot pool i ⟨some resource, false⟩ with
        inUse := pool.inUse - 1
        idleCount := pool.idleCount + 1
        opened := pool.opened ++ []
        closed := pool.closed ++ [] } := by
    simp [ResourcePool.releaseSlot, hslot, setSlot]
  have hmem : resource ∈ held := by
    have hbusy : resource ∈ resources busyResource pool :=
      List.mem_filterMap.mpr ⟨i, List.mem_range.mpr hi, by simp [hslot, busyResource]⟩
    rw [← h.held_eq] at hbusy
    exact hbusy
  rw [hwrite]
  apply h.write hi
  · simp
  · simp
  · simpa using h.opened_nodup
  · simp [hslot, busyResource, idleResource]
  · have hperm : (held : Multiset Resource) = (resource :: held.erase resource : List Resource) :=
      Multiset.coe_eq_coe.mpr (List.perm_cons_erase hmem)
    rw [hperm, ← Multiset.cons_coe, ← Multiset.singleton_add, add_comm, hslot]
    simp [busyResource]
  · rw [h.inUse_eq, List.length_erase_of_mem hmem]
    have := List.length_pos_of_mem hmem
    omega
  · simp [hslot, idleResource]

/-! ## Looking for a slot -/

/-- The loop closes idle resources that are not valid, and finds a slot exactly when one of
the idle resources is. -/
theorem Ledger.reuseLoop (h : Ledger pool held surplus) (validate : Resource → Bool)
    {l : List Nat} (hl : ∀ i ∈ l, i < pool.capacity) :
    Ledger (reuseLoop validate l pool).2 held surplus ∧
      (reuseLoop validate l pool).2.capacity = pool.capacity ∧
      (reuseLoop validate l pool).2.createFn = pool.createFn ∧
      (reuseLoop validate l pool).2.opened = pool.opened ∧
      (∀ i ∈ (reuseLoop validate l pool).1, i < pool.capacity ∧ ∃ resource,
        (reuseLoop validate l pool).2.slots i = ⟨some resource, false⟩) ∧
      ((reuseLoop validate l pool).1 = none ↔ ∀ i ∈ l, ∀ resource ∈ idleResource (pool.slots i),
        pool.validateFn = true ∧ validate resource = false) := by
  induction l generalizing pool with
  | nil => simpa [ResourcePool.reuseLoop] using h
  | cons i l ih =>
      have hi := hl i List.mem_cons_self
      have hrest : ∀ j ∈ l, j < pool.capacity := fun j hj => hl j (List.mem_cons_of_mem i hj)
      unfold ResourcePool.reuseLoop
      cases hidle : idleResource (pool.slots i) with
      | none =>
          dsimp only
          obtain ⟨hledger, hcap, hcreate, hopened, hfound, hnone⟩ := ih h hrest
          refine ⟨hledger, hcap, hcreate, hopened, hfound, hnone.trans ?_⟩
          simp [hidle]
      | some resource =>
          have hslot := idleResource_eq_some.mp hidle
          dsimp only
          by_cases hvalid : (!pool.validateFn || validate resource) = true
          · rw [if_pos hvalid]
            refine ⟨h, rfl, rfl, rfl, ?_, ?_⟩
            · rintro _ ⟨⟩
              exact ⟨hi, resource, hslot⟩
            · refine iff_of_false (by simp) ?_
              intro hstale
              have := hstale i List.mem_cons_self resource (by rw [hidle]; rfl)
              simp [this.1, this.2] at hvalid
          · rw [if_neg hvalid]
            have hstale : pool.validateFn = true ∧ validate resource = false := by
              simpa using hvalid
            obtain ⟨hledger, hcap, hcreate, hopened, hfound, hnone⟩ :=
              ih (h.closeSlot hi hslot) hrest
            refine ⟨hledger, hcap, hcreate, hopened, hfound, hnone.trans ?_⟩
            rw [List.forall_mem_cons, hidle]
            have hother : ∀ j, j ≠ i →
                (ResourcePool.closeSlot pool i resource).slots j = pool.slots j := fun j hj =>
              Function.update_of_ne hj _ _
            constructor
            · intro hrest
              have hself : ∀ r ∈ some resource, pool.validateFn = true ∧ validate r = false := by
                rintro _ ⟨⟩
                exact hstale
              refine ⟨hself, ?_⟩
              intro j hj r hr
              by_cases heq : j = i
              · rw [heq, hidle] at hr
                exact hself r hr
              · exact hrest j hj r (by rwa [hother j heq])
            · rintro ⟨-, hrest⟩ j hj r hr
              by_cases heq : j = i
              · rw [heq, ResourcePool.closeSlot, setSlot] at hr
                simp [idleResource] at hr
              · exact hrest j hj r (by rwa [hother j heq] at hr)

theorem Ledger.idle_opened (h : Ledger pool held surplus) (hi : i < pool.capacity)
    (hslot : pool.slots i = ⟨some resource, false⟩) : resource ∈ pool.opened := by
  have hmem : resource ∈ (pool.opened : Multiset Resource) := by
    rw [h.opened_eq]
    exact Multiset.mem_add.mpr (Or.inr (Multiset.mem_add.mpr (Or.inr (mem_idle hi hslot))))
  exact hmem

/-! ## Calls -/

/-- An acquisition that does not wait returns, and the surplus goes up exactly when it finds
an idle resource. -/
theorem Ledger.acquire (h : Ledger pool held surplus) (answers : Answers)
    (hfresh : FreshAnswers ⟨pool, held⟩ (.acquire answers)) :
    ∃ result pool' surplus', poolAcquire pool 0 [answers] = some (result, pool') ∧
      Ledger pool' (result.toList ++ held) surplus' ∧
      (NeverReuses ⟨pool, held⟩ (.acquire answers) → surplus' = surplus) ∧
      (¬NeverReuses ⟨pool, held⟩ (.acquire answers) → surplus' = surplus + 1) := by
  cases hcreate : pool.createFn with
  | false =>
      refine ⟨none, pool, surplus, by simp [poolAcquire, hcreate], h, fun _ => rfl, ?_⟩
      intro hreuses
      refine absurd ?_ hreuses
      intro i hi resource hidle
      have hopened := h.idle_opened hi (idleResource_eq_some.mp hidle)
      have hgiven := h.given (List.ne_nil_of_mem hopened)
      rw [hcreate] at hgiven
      contradiction
  | true =>
      obtain ⟨hledger, hcap, hcreate', hopened, hfound, hnone⟩ :=
        h.reuseLoop answers.validate (l := List.range pool.capacity)
          fun i hi => List.mem_range.mp hi
      have hiff : NeverReuses ⟨pool, held⟩ (.acquire answers) ↔
          (ResourcePool.reuseLoop answers.validate (List.range pool.capacity) pool).1 = none := by
        rw [hnone]
        simp only [NeverReuses, List.mem_range]
      rw [poolAcquire, h.ready, hcreate, hiff]
      simp only [Bool.not_true, Bool.or_self, Bool.false_eq_true, if_false, acquireLoop, pollOnce,
        findOrCreateSlot]
      generalize ResourcePool.reuseLoop answers.validate (List.range pool.capacity) pool = scan at *
      obtain ⟨found, pool'⟩ := scan
      dsimp only at hledger hcap hcreate' hopened hfound
      cases found with
      | some i =>
          obtain ⟨hi, resource, hslot⟩ := hfound i rfl
          rw [← hcap] at hi
          refine ⟨some resource, takeSlot pool' i, surplus + 1, by simp [hslot],
            hledger.takeIdle hi hslot, by simp, by simp⟩
      | none =>
          cases hempty : findIndex (fun i => (pool'.slots i).resource = none) pool'.capacity with
          | none => exact ⟨none, pool', surplus, by simp [hempty], hledger, by simp, by simp⟩
          | some i =>
              obtain ⟨hslot, hi, -⟩ := findIndex_eq_some.mp hempty
              have hslot' : (pool'.slots i).resource = none := by simpa using hslot
              cases hanswer : answers.create with
              | none =>
                  exact ⟨none, pool', surplus, by simp [hempty, hslot'], hledger, by simp,
                    by simp⟩
              | some resource =>
                  refine ⟨some resource, takeSlot (openSlot pool' i resource) i, surplus,
                    by simp [hempty, hslot'], ?_, by simp, by simp⟩
                  apply hledger.takeNew (hcreate'.trans hcreate) hi hslot'
                  rw [hopened]
                  exact hfresh resource hanswer

theorem poolRelease_cases (pool : Pool) (resource : Option Resource) :
    poolRelease pool resource = (-1, pool) ∨
      ∃ r i, resource = some r ∧ i < pool.capacity ∧ pool.slots i = ⟨some r, true⟩ ∧
        poolRelease pool resource = (0, releaseSlot pool i) := by
  cases resource with
  | none => exact Or.inl rfl
  | some r =>
      unfold poolRelease
      dsimp only
      cases hfound : findIndex (fun i => (pool.slots i).resource = some r ∧ (pool.slots i).inUse)
          pool.capacity with
      | none => exact Or.inl rfl
      | some i =>
          obtain ⟨hslot, hi, -⟩ := findIndex_eq_some.mp hfound
          obtain ⟨hresource, hused⟩ := of_decide_eq_true hslot
          exact Or.inr ⟨r, i, rfl, hi, by rw [← hresource, ← hused], rfl⟩

theorem Ledger.release (h : Ledger pool held surplus) (resource : Option Resource) :
    Ledger (poolRelease pool resource).2
      (if (poolRelease pool resource).1 = 0 then held.diff resource.toList else held) surplus := by
  obtain heq | ⟨r, i, hr, hi, hslot, heq⟩ := poolRelease_cases pool resource
  · rw [heq]
    exact h
  · rw [heq, hr]
    simpa using h.releaseSlot hi hslot

theorem Ledger.sweep (h : Ledger pool held surplus) (secondsSince : Nat → ℚ) :
    Ledger (poolSweepIdle pool secondsSince).2 held surplus := by
  unfold poolSweepIdle
  split
  · exact h
  · have hloop : ∀ (l : List Nat) (st : Int × Pool), (∀ i ∈ l, i < st.2.capacity) →
        Ledger st.2 held surplus → Ledger (l.foldl (sweepSlot secondsSince) st).2 held surplus := by
      intro l
      induction l with
      | nil => exact fun st _ hst => hst
      | cons i l ih =>
          intro st hl hst
          rw [List.foldl_cons]
          have hkeep : ∀ st' : Int × Pool, st'.2.capacity = st.2.capacity →
              ∀ j ∈ l, j < st'.2.capacity := fun st' hcap j hj =>
            hcap ▸ hl j (List.mem_cons_of_mem i hj)
          unfold sweepSlot
          split
          · exact ih st (hkeep st rfl) hst
          · next resource hidle =>
              split
              · exact ih _ (hkeep _ rfl)
                  (hst.closeSlot (hl i List.mem_cons_self) (idleResource_eq_some.mp hidle))
              · exact ih st (hkeep st rfl) hst
    exact hloop _ _ (fun i hi => List.mem_range.mp hi) h

theorem Ledger.prewarm (h : Ledger pool held surplus) (minIdle : Int)
    (create : Nat → Option Resource)
    (hfresh : FreshAnswers ⟨pool, held⟩ (.prewarm minIdle create)) :
    Ledger (poolPrewarm pool minIdle create).2 held surplus := by
  unfold poolPrewarm
  by_cases hcreate : pool.createFn = true
  · have hloop : ∀ (l : List Nat) (st : Int × Pool), l.Nodup → (∀ i ∈ l, i < pool.capacity) →
        st.2.capacity = pool.capacity → st.2.createFn = true →
        (∀ i ∈ l, ∀ resource ∈ create i, resource ∉ st.2.opened) →
        Ledger st.2 held surplus →
        Ledger (l.foldl (prewarmSlot minIdle create) st).2 held surplus := by
      intro l
      induction l with
      | nil => exact fun st _ _ _ _ _ hst => hst
      | cons i l ih =>
          intro st hnodup hl hcap hst hnew hledger
          rw [List.nodup_cons] at hnodup
          have hi := hl i List.mem_cons_self
          have hl' : ∀ j ∈ l, j < pool.capacity := fun j hj => hl j (List.mem_cons_of_mem i hj)
          have hnew' : ∀ j ∈ l, ∀ resource ∈ create j, resource ∉ st.2.opened := fun j hj =>
            hnew j (List.mem_cons_of_mem i hj)
          rw [List.foldl_cons, prewarmSlot]
          split
          · split
            · next resource hempty hanswer =>
                apply ih (st.1 + 1, ResourcePool.warmSlot st.2 i resource) hnodup.2 hl' hcap hst
                · intro j hj r hr
                  change r ∉ st.2.opened ++ [resource]
                  rw [List.mem_append, List.mem_singleton, not_or]
                  refine ⟨hnew' j hj r hr, ?_⟩
                  rintro rfl
                  have heq : j = i := (hfresh i hi r hanswer).2 j (hl' j hj) hr
                  exact hnodup.1 (heq ▸ hj)
                · exact hledger.warmSlot hst (hcap ▸ hi) hempty
                    (hnew i List.mem_cons_self resource hanswer)
            · exact ih st hnodup.2 hl' hcap hst hnew' hledger
          · exact ih st hnodup.2 hl' hcap hst hnew' hledger
    rw [if_neg (by simp [hcreate])]
    exact hloop _ _ List.nodup_range (fun i hi => List.mem_range.mp hi) rfl hcreate
      (fun i hi r hr => (hfresh i (List.mem_range.mp hi) r hr).1) h
  · rw [if_pos (by simpa using hcreate)]
    exact h

theorem Ledger.step (h : Ledger pool held surplus) {op : Op}
    (hfresh : FreshAnswers ⟨pool, held⟩ op) :
    ∃ client' surplus', ResourcePool.step ⟨pool, held⟩ op = some client' ∧
      Ledger client'.pool client'.held surplus' ∧
      (NeverReuses ⟨pool, held⟩ op → surplus' = surplus) ∧
      (¬NeverReuses ⟨pool, held⟩ op → surplus' = surplus + 1) := by
  cases op with
  | acquire answers =>
      obtain ⟨result, pool', surplus', hacquire, hledger, hkeeps, hreuses⟩ :=
        h.acquire answers hfresh
      exact ⟨⟨pool', result.toList ++ held⟩, surplus', by simp [ResourcePool.step, hacquire],
        hledger, hkeeps, hreuses⟩
  | release resource =>
      exact ⟨_, surplus, rfl, h.release resource, fun _ => rfl, fun hc => absurd trivial hc⟩
  | sweepIdle secondsSince =>
      exact ⟨_, surplus, rfl, h.sweep secondsSince, fun _ => rfl, fun hc => absurd trivial hc⟩
  | prewarm minIdle create =>
      exact ⟨_, surplus, rfl, h.prewarm minIdle create hfresh, fun _ => rfl,
        fun hc => absurd trivial hc⟩

/-! ## Runs -/

theorem Ledger.disjoint (h : Ledger pool held surplus) : held.Nodup ∧
    (∀ r ∈ held, r ∉ pool.closed) ∧
      ∀ r ∈ resources idleResource pool, r ∉ pool.closed ∧ r ∉ held := by
  have hnodup : (pool.closed + (resources busyResource pool +
      resources idleResource pool) : Multiset Resource).Nodup := by
    rw [← h.opened_eq]
    exact h.opened_nodup
  rw [← h.held_eq] at hnodup
  obtain ⟨-, hopen, hclosed⟩ := Multiset.nodup_add.mp hnodup
  obtain ⟨hheld, -, hidle⟩ := Multiset.nodup_add.mp hopen
  refine ⟨hheld, ?_, ?_⟩
  · intro r hr hc
    exact Multiset.disjoint_left.mp hclosed hc (Multiset.mem_add.mpr (Or.inl hr))
  · intro r hr
    constructor
    · intro hc
      exact Multiset.disjoint_left.mp hclosed hc (Multiset.mem_add.mpr (Or.inr hr))
    · intro hh
      exact Multiset.disjoint_left.mp hidle hh hr

theorem Ledger.idle_eq (h : Ledger pool held surplus) :
    (pool.opened.filter fun resource => resource ∉ pool.closed ∧ resource ∉ held : List Resource) =
      resources idleResource pool := by
  obtain ⟨-, hheld, hidle⟩ := h.disjoint
  rw [← Multiset.filter_coe, h.opened_eq, ← h.held_eq, Multiset.filter_add, Multiset.filter_add]
  have hclosed : Multiset.filter (fun r => r ∉ pool.closed ∧ r ∉ held)
      (pool.closed : Multiset Resource) = 0 :=
    Multiset.filter_eq_nil.mpr fun r hr hc => hc.1 hr
  have hbusy : Multiset.filter (fun r => r ∉ pool.closed ∧ r ∉ held)
      (held : Multiset Resource) = 0 :=
    Multiset.filter_eq_nil.mpr fun r hr hc => hc.2 hr
  rw [hclosed, hbusy, Multiset.filter_eq_self.mpr hidle, zero_add, zero_add]

theorem card_resources_le (pool : Pool) : (resources busyResource pool).card +
    (resources idleResource pool).card ≤ pool.capacity := by
  have hslots : ∀ l : List Nat, (l.filterMap fun i => busyResource (pool.slots i)).length +
      (l.filterMap fun i => idleResource (pool.slots i)).length ≤ l.length := by
    intro l
    induction l with
    | nil => simp
    | cons i l ih =>
        rw [List.filterMap_cons, List.filterMap_cons]
        unfold busyResource idleResource at *
        cases (pool.slots i).inUse <;> cases (pool.slots i).resource <;> simp <;> omega
  have hrange := hslots (List.range pool.capacity)
  rw [List.length_range] at hrange
  exact hrange

theorem Ledger.accounted_iff_surplus (h : Ledger pool held surplus) :
    Accounted ⟨pool, held⟩ ↔ surplus = 0 := by
  have hcount := h.idleCount_eq
  have hcard := card_resources_le pool
  rw [← h.idle_eq, Multiset.coe_card] at hcount hcard
  rw [← h.held_eq, Multiset.coe_card] at hcard
  constructor
  · intro haccounted
    have hright := haccounted.idleCount_eq
    dsimp only at hright
    omega
  · intro hzero
    obtain ⟨hnodup, hheld, -⟩ := h.disjoint
    have hinUse := h.inUse_eq
    refine ⟨hnodup, hheld, hinUse, ?_, ?_⟩
    · dsimp only
      omega
    · dsimp only
      omega

end

theorem ledger_poolInit (capacity idleTimeoutSec : Int) (createFn validateFn : Bool) :
    Ledger (poolInit capacity idleTimeoutSec createFn validateFn) [] 0 := by
  have hempty : ∀ f : PoolSlot → Option Resource, f ⟨none, false⟩ = none →
      resources f (poolInit capacity idleTimeoutSec createFn validateFn) = 0 := by
    intro f hf
    simp [resources, poolInit, hf]
  have hbusy := hempty busyResource rfl
  have hidle := hempty idleResource rfl
  refine ⟨rfl, fun hne => absurd rfl hne, List.nodup_nil, ?_, ?_, ?_, rfl, ?_⟩
  · rw [hbusy, hidle]
    rfl
  · rw [hbusy]
    rfl
  · intro i _ hused
    contradiction
  · rw [hidle]
    rfl

/-- The accounts stay right in a run exactly as long as no acquisition reuses an idle
resource. -/
theorem accounts_right_iff (capacity idleTimeoutSec : Int) (createFn validateFn : Bool)
    (ops : List Op) (hfresh : AlwaysOption step FreshAnswers
      ⟨poolInit capacity idleTimeoutSec createFn validateFn, []⟩ ops) :
    AlwaysOption step CallHolds ⟨poolInit capacity idleTimeoutSec createFn validateFn, []⟩ ops ↔
      AlwaysOption step NeverReuses ⟨poolInit capacity idleTimeoutSec createFn validateFn, []⟩
        ops := by
  apply alwaysOption_iff step (I := fun client => Ledger client.pool client.held 0)
    (r := FreshAnswers) _ _ (ledger_poolInit ..) hfresh
  · intro client op h hop
    obtain ⟨client', surplus', hstep, hledger, hkeeps, hreuses⟩ := h.step hop
    constructor
    · rintro ⟨client'', hstep', haccounted⟩
      have heq : client'' = client' := Option.some.inj (hstep'.symm.trans hstep)
      rw [heq] at haccounted
      by_contra hc
      have hzero := hledger.accounted_iff_surplus.mp haccounted
      rw [hreuses hc] at hzero
      contradiction
    · intro hop'
      rw [hkeeps hop'] at hledger
      exact ⟨client', hstep, hledger.accounted_iff_surplus.mpr rfl⟩
  · intro client op client' h hop hop' hstep
    obtain ⟨client'', surplus', hstep', hledger, hkeeps, -⟩ := h.step hop
    have heq : client'' = client' := Option.some.inj (hstep'.symm.trans hstep)
    rw [← heq, ← hkeeps hop']
    exact hledger

/-- Two acquisitions, a release, and an acquisition that finds the idle resource stale. -/
def staleRun : List Op :=
  [.acquire ⟨fun _ => true, some 71⟩, .acquire ⟨fun _ => true, some 72⟩, .release (some 71),
    .acquire ⟨fun _ => false, some 73⟩, .release (some 73), .sweepIdle fun _ => 30]

def reuseRun : List Op :=
  [.acquire ⟨fun _ => true, some 71⟩, .release (some 71), .acquire ⟨fun _ => true, none⟩]

theorem accounts_right_iff_stale :
    AlwaysOption step NeverReuses ⟨poolInit 2 30 true true, []⟩ staleRun ∧
      (AlwaysOption step CallHolds ⟨poolInit 2 30 true true, []⟩ staleRun ↔
        AlwaysOption step NeverReuses ⟨poolInit 2 30 true true, []⟩ staleRun) :=
  ⟨by decide, accounts_right_iff 2 30 true true staleRun (by decide)⟩

/-- The resource that is acquired again counts as held and as idle. -/
theorem reused_counts_twice :
    ¬∀ (capacity idleTimeoutSec : Int) (createFn validateFn : Bool) (ops : List Op),
      AlwaysOption step FreshAnswers
          ⟨poolInit capacity idleTimeoutSec createFn validateFn, []⟩ ops →
        AlwaysOption step CallHolds
          ⟨poolInit capacity idleTimeoutSec createFn validateFn, []⟩ ops := by
  intro h
  have hrun := h 1 0 true true reuseRun (by decide)
  obtain ⟨client, hstep, haccounted⟩ := ((hrun.2 _ rfl).2 _ rfl).1
  cases hstep
  have hwithin := haccounted.within
  revert hwithin
  decide

end MiniBackend.Framework.Proofs.PoolAccounting
