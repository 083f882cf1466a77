import MiniBackend.Infra.Proofs.RegistryKeys
import MiniBackend.Lib.FirstMaximum

/-!
# Rendezvous lookup

The lookup is the first maximum of the weighted hashes among the instances that are up.  A hash
depends on its own instance only, so that what happens to another one moves no key between the
rest.
-/

namespace MiniBackend.Infra.Proofs.RendezvousLookup

open MiniBackend.Lib.CArray MiniBackend.Lib.CString MiniBackend.Lib.FirstMaximum
open MiniBackend.Infra.Registry MiniBackend.Infra.Proofs.RegistryKeys

variable {registry : SrRegistry} {serviceName key : CStr} {x : SrInstance}

def referred (registry : SrRegistry) (serviceName instanceId : CStr) : Option SrInstance :=
  (discovered registry serviceName).find? (·.instanceId.val = instanceId)

/-- The highest weighted hash among the instances that are up, and the first such. -/
def pick (key : CStr) (instances : List SrInstance) : Option SrInstance :=
  (instances.filter isUp).argmax fun inst => (weightedHash key inst).toNat

/-! ## The scan -/

def ScanSound (key : CStr) (seen : List SrInstance) (scan : RendezvousScan) : Prop :=
  (pick key seen = none ∧ scan.bestIdx = none) ∨
    ∃ i inst, pick key seen = some inst ∧ scan.bestIdx = some i ∧ seen[i]? = some inst ∧
      scan.bestHash = weightedHash key inst

theorem pick_concat (key : CStr) (seen : List SrInstance) (inst : SrInstance) :
    pick key (seen ++ [inst]) =
      if isUp inst = true then (pick key seen).elim (some inst) fun best =>
        if (weightedHash key best).toNat < (weightedHash key inst).toNat then some inst
        else some best
      else pick key seen :=
  argmax_filter_concat seen inst

theorem ScanSound.skip {seen : List SrInstance} {scan : RendezvousScan} {inst : SrInstance}
    (hsound : ScanSound key seen scan) (hkeep : pick key (seen ++ [inst]) = pick key seen) :
    ScanSound key (seen ++ [inst]) scan := by
  unfold ScanSound
  rw [hkeep]
  rcases hsound with hnone | ⟨i, best, hpick, hidx, hget, hhash⟩
  · exact Or.inl hnone
  · refine Or.inr ⟨i, best, hpick, hidx, ?_, hhash⟩
    rw [List.getElem?_append_left (List.getElem?_eq_some_iff.mp hget).1]
    exact hget

theorem ScanSound.take {seen : List SrInstance} {inst : SrInstance}
    (hpick : pick key (seen ++ [inst]) = some inst) :
    ScanSound key (seen ++ [inst]) ⟨weightedHash key inst, some seen.length⟩ :=
  Or.inr ⟨seen.length, inst, hpick, rfl, List.getElem?_concat_length, rfl⟩

theorem rendezvousLoop_sound (key : CStr) (instances seen : List SrInstance)
    (scan : RendezvousScan) (hsound : ScanSound key seen scan) :
    ScanSound key (seen ++ instances) (rendezvousLoop key instances seen.length scan) := by
  induction instances generalizing seen scan with
  | nil => rwa [List.append_nil]
  | cons inst instances ih =>
      have hnext (scan' : RendezvousScan) (hsound' : ScanSound key (seen ++ [inst]) scan') :
          ScanSound key (seen ++ inst :: instances)
            (rendezvousLoop key instances (seen.length + 1) scan') := by
        have hrest := ih (seen ++ [inst]) scan' hsound'
        rwa [List.append_assoc, List.singleton_append, List.length_append,
          List.length_singleton] at hrest
      unfold rendezvousLoop
      split
      · rename_i hup
        have hpick := pick_concat key seen inst
        rw [if_pos hup] at hpick
        dsimp only
        split
        · rename_i hbetter
          apply hnext
          apply ScanSound.take
          rcases hsound with ⟨hnone, -⟩ | ⟨i, best, hbest, hidx, -, hhash⟩
          · rw [hpick, hnone, Option.elim_none]
          · rw [hidx, hhash] at hbetter
            have hlt := hbetter.resolve_right (by simp)
            rw [hpick, hbest, Option.elim_some]
            exact if_pos hlt
        · rename_i hworse
          apply hnext
          apply hsound.skip
          rcases hsound with ⟨-, hidx⟩ | ⟨i, best, hbest, hidx, -, hhash⟩
          · exact absurd (Or.inr hidx) hworse
          · have hge : ¬weightedHash key best < weightedHash key inst := by
              rw [← hhash]
              exact fun h => hworse (Or.inl h)
            rw [hpick, hbest, Option.elim_some]
            exact if_neg hge
      · rename_i hdown
        apply hnext
        apply hsound.skip
        rw [pick_concat, if_neg hdown]

theorem srLookupRendezvous_eq (registry : SrRegistry) (serviceName key : CStr) :
    srLookupRendezvous registry serviceName key = pick key (discovered registry serviceName) := by
  rw [srLookupRendezvous, discovered_eq]
  cases srFindService registry serviceName with
  | none => rfl
  | some svc =>
      have hsound := rendezvousLoop_sound key svc.instances [] ⟨0, none⟩ (Or.inl ⟨rfl, rfl⟩)
      rw [Option.bind_some, Option.map_some, Option.getD_some]
      rcases hsound with ⟨hnone, hidx⟩ | ⟨i, best, hbest, hidx, hget, -⟩
      · rw [List.length_nil] at hidx
        rw [hidx]
        exact hnone.symm
      · rw [List.length_nil] at hidx
        rw [hidx]
        exact hget.trans hbest.symm

/-! ## Calls about other instances -/

/-- A change of one service keeps the lookup if it keeps the pick. -/
theorem lookup_of_discovered {registry' : SrRegistry} {changed : CStr}
    {instances : List SrInstance}
    (hchange : ∀ other, discovered registry' other =
      if other = changed then instances else discovered registry other)
    (hpick : srLookupRendezvous registry serviceName key = some x)
    (hsame : serviceName = changed → pick key instances = some x) :
    srLookupRendezvous registry' serviceName key = some x := by
  rw [srLookupRendezvous_eq] at hpick ⊢
  rw [hchange]
  split
  · rename_i hservice
    exact hsame hservice
  · exact hpick

theorem lookup_srDeregister (hpick : srLookupRendezvous registry serviceName key = some x)
    {service instanceId : CStr}
    (hother : service = serviceName → referred registry serviceName instanceId ≠ some x) :
    srLookupRendezvous (srDeregister registry service instanceId).2 serviceName key = some x := by
  rcases srDeregister_spec registry service instanceId with ⟨-, hsame⟩ | ⟨-, hchange⟩
  · rw [hsame]
    exact hpick
  · apply lookup_of_discovered hchange hpick
    rintro rfl
    rw [srLookupRendezvous_eq] at hpick
    exact argmax_filter_eraseP hpick (hother rfl)

theorem discovered_updateFirst {service instanceId : CStr} {g : SrInstance → SrInstance}
    {svc : SrSvcEntry} (hfind : srFindService registry service = some svc) (other : CStr) :
    discovered (modifyService registry service
        (updateFirst (·.instanceId.val = instanceId) g)) other =
      if other = service then updateFirst (·.instanceId.val = instanceId) g
        (discovered registry service)
      else discovered registry other :=
  discovered_modifyService hfind _ other

theorem lookup_updateFirst (hpick : srLookupRendezvous registry serviceName key = some x)
    {service instanceId : CStr} {g : SrInstance → SrInstance} {svc : SrSvcEntry}
    (hfind : srFindService registry service = some svc) (hout : ∀ inst, isUp (g inst) = false)
    (hother : service = serviceName → referred registry serviceName instanceId ≠ some x) :
    srLookupRendezvous (modifyService registry service
      (updateFirst (·.instanceId.val = instanceId) g)) serviceName key = some x := by
  apply lookup_of_discovered (discovered_updateFirst hfind) hpick
  rintro rfl
  rw [srLookupRendezvous_eq] at hpick
  exact argmax_filter_updateFirst hpick (hother rfl) hout

theorem lookup_srSetStatus (hpick : srLookupRendezvous registry serviceName key = some x)
    {service instanceId : CStr}
    (hother : service = serviceName → referred registry serviceName instanceId ≠ some x) :
    srLookupRendezvous (srSetStatus registry service instanceId .down).2 serviceName key =
      some x := by
  unfold srSetStatus
  cases hfind : srFindService registry service with
  | none => exact hpick
  | some svc =>
      dsimp only
      split
      · exact lookup_updateFirst hpick hfind (fun _ => rfl) hother
      · exact hpick

theorem isUp_takeDown (inst : SrInstance) : isUp (takeDown inst) = false := by
  unfold isUp takeDown
  cases inst.status <;> rfl

theorem lookup_srHealthCheckInstance
    (hpick : srLookupRendezvous registry serviceName key = some x) {service instanceId : CStr}
    (hother : service = serviceName → referred registry serviceName instanceId ≠ some x) :
    srLookupRendezvous (srHealthCheckInstance registry service instanceId).2 serviceName key =
      some x := by
  unfold srHealthCheckInstance
  cases hfind : srFindService registry service with
  | none => exact hpick
  | some svc =>
      dsimp only
      split
      · exact lookup_updateFirst hpick hfind isUp_takeDown hother
      · exact hpick

theorem discovered_srHealthCheck (registry : SrRegistry) (now : Int) (service : CStr) :
    discovered (srHealthCheck registry now) service =
      (discovered registry service).map fun inst =>
        if expired now inst then { inst with status := .down } else inst := by
  rw [discovered_eq, discovered_eq, srHealthCheck, srFindService, List.find?_map]
  unfold srFindService
  have hname : (fun svc : SrSvcEntry => decide (svc.name = service)) ∘ (fun svc : SrSvcEntry =>
      { svc with instances := svc.instances.map fun inst =>
        if expired now inst then { inst with status := .down } else inst }) =
      fun svc => decide (svc.name = service) := rfl
  rw [hname]
  cases registry.services.find? fun svc => decide (svc.name = service) <;> rfl

theorem lookup_srHealthCheck (hpick : srLookupRendezvous registry serviceName key = some x)
    {now : Int} (hlive : expired now x = false) :
    srLookupRendezvous (srHealthCheck registry now) serviceName key = some x := by
  rw [srLookupRendezvous_eq] at hpick ⊢
  rw [discovered_srHealthCheck]
  apply argmax_filter_map hpick
  · rw [hlive, if_neg Bool.false_ne_true]
  · intro inst _
    split
    · exact Or.inr rfl
    · exact Or.inl rfl

theorem lookup_srRegister (hpick : srLookupRendezvous registry serviceName key = some x)
    (inst : SrInstance) (now : Int) (random : Nat → UInt16) :
    srLookupRendezvous (srRegister registry inst now random).2 serviceName key = some x ∨
      srLookupRendezvous (srRegister registry inst now random).2 serviceName key =
        some (stored inst now random) := by
  rcases srRegister_spec registry inst now random with ⟨-, hsame, -⟩ | ⟨-, -, hchange⟩
  · rw [hsame]
    exact Or.inl hpick
  · rw [srLookupRendezvous_eq] at hpick ⊢
    rw [hchange]
    split
    · rename_i hservice
      rw [hservice] at hpick
      exact argmax_filter_concat_of_some _ hpick
    · exact Or.inl hpick

/-- The lookup of a key after calls about other instances than the one that was picked. -/
structure MinimalDisruption (registry : SrRegistry) (serviceName key : CStr) (x : SrInstance) :
    Prop where
  deregistered : ∀ service instanceId,
    (service = serviceName → referred registry serviceName instanceId ≠ some x) →
      srLookupRendezvous (srDeregister registry service instanceId).2 serviceName key = some x
  marked : ∀ service instanceId,
    (service = serviceName → referred registry serviceName instanceId ≠ some x) →
      srLookupRendezvous (srSetStatus registry service instanceId .down).2 serviceName key = some x
  checked : ∀ service instanceId,
    (service = serviceName → referred registry serviceName instanceId ≠ some x) →
      srLookupRendezvous (srHealthCheckInstance registry service instanceId).2 serviceName key =
        some x
  expired : ∀ now, expired now x = false →
    srLookupRendezvous (srHealthCheck registry now) serviceName key = some x
  registered : ∀ inst now random,
    srLookupRendezvous (srRegister registry inst now random).2 serviceName key = some x ∨
      srLookupRendezvous (srRegister registry inst now random).2 serviceName key =
        some (stored inst now random)

/-- Only keys of an instance that leaves move, and a new instance takes keys and moves no
others. -/
theorem rendezvous_minimal_disruption
    (hpick : srLookupRendezvous registry serviceName key = some x) :
    MinimalDisruption registry serviceName key x where
  deregistered _ _ hother := lookup_srDeregister hpick hother
  marked _ _ hother := lookup_srSetStatus hpick hother
  checked _ _ hother := lookup_srHealthCheckInstance hpick hother
  expired _ hlive := lookup_srHealthCheck hpick hlive
  registered := lookup_srRegister hpick

def secondOrders : SrInstance := { restarted with instanceId := ⟨lit "i2", by decide⟩ }

def twoOrders : SrRegistry := ⟨[⟨lit "orders", [restarted, secondOrders]⟩]⟩

theorem rendezvous_minimal_disruption_orders :
    MinimalDisruption twoOrders (lit "orders") (lit "customer-7") secondOrders :=
  rendezvous_minimal_disruption (by decide)

end MiniBackend.Infra.Proofs.RendezvousLookup
