import MiniBackend.Infra.Proofs.RegistryKeys
import MiniBackend.Lib.Rotation

/-!
# When the round robin is fair to a service

All services share one counter.  A lookup goes on behind the service's own last pick only if
the lookups of the other services in between happen to leave the counter in a place from which
the same instance comes next.
-/

namespace MiniBackend.Infra.Proofs.FairLookup

open MiniBackend.Lib.CString MiniBackend.Lib.Rotation MiniBackend.Lib.Runs
open MiniBackend.Infra.Registry MiniBackend.Infra.Proofs.RegistryKeys

/-- A call of `sr_lookup_one`. -/
structure Lookup where
  service : CStr
  strategy : SrLbStrategy
  random : Nat

structure Rotations where
  rrCounter : Nat
  picks : CStr → List SrInstance
  last : CStr → Option Nat

def start (rrCounter : Nat) : Rotations := ⟨rrCounter, fun _ => [], fun _ => none⟩

def lookupStep (registry : SrRegistry) (s : Rotations) (lookup : Lookup) : Rotations :=
  let (picked, rrCounter) :=
    srLookupOne registry s.rrCounter lookup.service lookup.strategy lookup.random
  match lookup.strategy, picked with
  | .roundRobin, some inst =>
      { rrCounter
        picks := Function.update s.picks lookup.service (s.picks lookup.service ++ [inst])
        last := Function.update s.last lookup.service (some (rrCounter - 1)) }
  | _, _ => { s with rrCounter }

def Behind (instances : List SrInstance) (p rrCounter : Nat) : Prop :=
  ∃ d < instances.length, (p + 1 + d) % instances.length = rrCounter % instances.length ∧
    ∀ j < d, instances[(p + 1 + j) % instances.length]?.any isUp = false

/-- A round robin lookup finds the counter behind the last pick of its own service. -/
def Undisturbed (registry : SrRegistry) (s : Rotations) (lookup : Lookup) : Prop :=
  lookup.strategy = .roundRobin → ∀ p ∈ s.last lookup.service,
    Behind (discovered registry lookup.service) p s.rrCounter

instance decidableBehind (instances : List SrInstance) (p rrCounter : Nat) :
    Decidable (Behind instances p rrCounter) :=
  inferInstanceAs (Decidable (∃ d < instances.length, _ ∧ ∀ j < d, _))

instance decidableUndisturbed (registry : SrRegistry) (s : Rotations) (lookup : Lookup) :
    Decidable (Undisturbed registry s lookup) :=
  inferInstanceAs (Decidable (_ → ∀ p ∈ s.last lookup.service, _))

structure Turns (instances picks : List SrInstance) (last : Option Nat) : Prop where
  around : ∃ r : List SrInstance, r.Perm (instances.filter isUp) ∧ Follows r picks ∧
    ∀ p ∈ last, ring isUp instances (p + 1) = r.rotate picks.length
  first : last = none → picks = []

theorem rrScan_spec {instances : List SrInstance} {start idx : Nat}
    (h : rrScan instances start = some idx) :
    ∃ d, idx = (start + d) % instances.length ∧ instances[idx]?.any isUp = true ∧
      ∀ j < d, instances[(start + j) % instances.length]?.any isUp = false := by
  unfold rrScan at h
  rw [List.find?_map, Option.map_eq_some_iff] at h
  obtain ⟨d, hfind, rfl⟩ := h
  rw [List.find?_range_eq_some] at hfind
  obtain ⟨hup, _, hbefore⟩ := hfind
  refine ⟨d, rfl, hup, ?_⟩
  intro j hj
  simpa using hbefore j hj

theorem ring_scan {instances : List SrInstance} {rrCounter idx : Nat} {inst : SrInstance}
    (h : rrScan instances (rrCounter % instances.length) = some idx)
    (hinst : instances[idx]? = some inst) :
    (ring isUp instances rrCounter).head? = some inst ∧
      ring isUp instances (idx + 1) = (ring isUp instances rrCounter).rotate 1 := by
  obtain ⟨d, rfl, hup, hskip⟩ := rrScan_spec h
  rw [hinst, Option.any_some] at hup
  have hnext := ring_next hskip hinst hup
  rw [ring_mod] at hnext
  refine ⟨hnext.1, ?_⟩
  rw [← hnext.2, ← ring_mod, Nat.mod_add_mod, ring_mod]

theorem Turns.lookup {instances picks : List SrInstance} {last : Option Nat}
    (h : Turns instances picks last) {rrCounter idx : Nat} {inst : SrInstance}
    (hbehind : ∀ p ∈ last, Behind instances p rrCounter)
    (hscan : rrScan instances (rrCounter % instances.length) = some idx)
    (hinst : instances[idx]? = some inst) :
    Turns instances (picks ++ [inst]) (some idx) := by
  obtain ⟨hhead, hnext⟩ := ring_scan hscan hinst
  refine ⟨?_, fun hnone => by cases hnone⟩
  cases hlast : last with
  | none =>
      rw [h.first hlast, List.nil_append]
      refine ⟨ring isUp instances rrCounter, ring_perm .., ?_, ?_⟩
      · apply (follows_nil (ring isUp instances rrCounter)).snoc
        exact (congrArg List.head? (List.rotate_zero _)).trans hhead
      · intro p hp
        cases hp
        exact hnext
  | some q =>
      obtain ⟨r, hperm, hfollows, hring⟩ := h.around
      obtain ⟨d, _, hplace, hskip⟩ := hbehind q hlast
      have hsame : ring isUp instances rrCounter = r.rotate picks.length := by
        rw [← hring q hlast, ← ring_skip hskip, ← ring_mod, ← hplace, ring_mod]
      rw [hsame] at hhead hnext
      refine ⟨r, hperm, hfollows.snoc hhead, ?_⟩
      intro p hp
      cases hp
      rw [hnext, List.rotate_rotate, List.length_append, List.length_singleton]

theorem lookupStep_cases (registry : SrRegistry) (s : Rotations) (lookup : Lookup) :
    (∃ idx inst, lookup.strategy = .roundRobin ∧
        rrScan (discovered registry lookup.service)
          (s.rrCounter % (discovered registry lookup.service).length) = some idx ∧
        (discovered registry lookup.service)[idx]? = some inst ∧
        lookupStep registry s lookup =
          { rrCounter := idx + 1
            picks := Function.update s.picks lookup.service (s.picks lookup.service ++ [inst])
            last := Function.update s.last lookup.service (some idx) }) ∨
      ((lookupStep registry s lookup).picks = s.picks ∧
        (lookupStep registry s lookup).last = s.last) := by
  obtain ⟨service, strategy, random⟩ := lookup
  cases strategy with
  | random => exact Or.inr ⟨rfl, rfl⟩
  | weighted => exact Or.inr ⟨rfl, rfl⟩
  | roundRobin =>
      unfold lookupStep srLookupOne
      dsimp only
      cases hfind : srFindService registry service with
      | none => exact Or.inr ⟨rfl, rfl⟩
      | some svc =>
          rw [discovered_some hfind]
          dsimp only
          by_cases hup : svc.instances.any isUp = true
          · rw [if_pos hup]
            cases hscan : rrScan svc.instances (s.rrCounter % svc.instances.length) with
            | none => exact Or.inr ⟨rfl, rfl⟩
            | some idx =>
                dsimp only
                cases hinst : svc.instances[idx]? with
                | none => exact Or.inr ⟨rfl, rfl⟩
                | some inst => exact Or.inl ⟨idx, inst, rfl, rfl, hinst, rfl⟩
          · rw [if_neg hup]
            exact Or.inr ⟨rfl, rfl⟩

def Rotating (registry : SrRegistry) (s : Rotations) : Prop :=
  ∀ service, Turns (discovered registry service) (s.picks service) (s.last service)

theorem rotating_start (registry : SrRegistry) (rrCounter : Nat) :
    Rotating registry (start rrCounter) := by
  intro service
  refine ⟨⟨_, List.Perm.refl _, follows_nil _, ?_⟩, fun _ => rfl⟩
  intro p hp
  cases hp

theorem Rotating.step {registry : SrRegistry} {s : Rotations} {lookup : Lookup}
    (h : Rotating registry s) (hlookup : Undisturbed registry s lookup) :
    Rotating registry (lookupStep registry s lookup) := by
  rcases lookupStep_cases registry s lookup with
    ⟨idx, inst, hstrategy, hscan, hinst, hstep⟩ | ⟨hpicks, hlast⟩
  · rw [hstep]
    intro service
    dsimp only
    by_cases hservice : service = lookup.service
    · subst hservice
      rw [Function.update_self, Function.update_self]
      exact (h lookup.service).lookup (hlookup hstrategy) hscan hinst
    · rw [Function.update_of_ne hservice, Function.update_of_ne hservice]
      exact h service
  · intro service
    rw [hpicks, hlast]
    exact h service

/-- In a run in which no service's turn is disturbed, each window of as many picks of a service
as it has instances that are up holds each of them once. -/
theorem picks_fair {registry : SrRegistry} {rrCounter : Nat} {lookups : List Lookup}
    (h : Always (lookupStep registry) (Undisturbed registry) (start rrCounter) lookups)
    {service : CStr} {i : Nat}
    (hi : i + ((discovered registry service).filter isUp).length ≤
      ((run (lookupStep registry) (start rrCounter) lookups).picks service).length) :
    ((((run (lookupStep registry) (start rrCounter) lookups).picks service).drop i).take
        ((discovered registry service).filter isUp).length).Perm
      ((discovered registry service).filter isUp) := by
  have hrun : Rotating registry (run (lookupStep registry) (start rrCounter) lookups) :=
    run_invariant _ (fun _ _ hs hlookup => hs.step hlookup)
      (rotating_start registry rrCounter) h
  obtain ⟨r, hperm, hfollows, _⟩ := (hrun service).around
  rw [← hperm.length_eq] at hi ⊢
  exact (hfollows.window hi).trans hperm

def instanceOf (service id : CStr) (hservice : service.length < srMaxNameLen)
    (hid : id.length < 37) : SrInstance :=
  { restarted with serviceName := ⟨service, hservice⟩, instanceId := ⟨id, hid⟩ }

/-- Service `a` has two instances, and service `b` has one. -/
def twoServices : SrRegistry where
  services :=
    [⟨lit "a", [instanceOf (lit "a") (lit "a1") (by decide) (by decide),
        instanceOf (lit "a") (lit "a2") (by decide) (by decide)]⟩,
      ⟨lit "b", [instanceOf (lit "b") (lit "b1") (by decide) (by decide)]⟩]

def lookupsOf (services : List String) : List Lookup :=
  services.map fun service => ⟨lit service, .roundRobin, 0⟩

/-- The picks for `a` from the start on. -/
def picksOf (services : List String) : List SrInstance :=
  (run (lookupStep twoServices) (start 0) (lookupsOf services)).picks (lit "a")

theorem picks_fair_aba :
    Always (lookupStep twoServices) (Undisturbed twoServices) (start 0)
        (lookupsOf ["a", "b", "a"]) ∧
      (((picksOf ["a", "b", "a"]).drop 0).take
        ((discovered twoServices (lit "a")).filter isUp).length).Perm
          ((discovered twoServices (lit "a")).filter isUp) := by
  have hundisturbed : Always (lookupStep twoServices) (Undisturbed twoServices) (start 0)
      (lookupsOf ["a", "b", "a"]) := by decide
  have hwindow : 0 + ((discovered twoServices (lit "a")).filter isUp).length ≤
      (picksOf ["a", "b", "a"]).length := by decide
  exact ⟨hundisturbed, picks_fair hundisturbed hwindow⟩

/-- A lookup of `b` puts the counter back to 1, and `a2` is picked twice in a row. -/
theorem picks_ababa :
    (picksOf ["a", "b", "a", "b", "a"]).map (·.instanceId.val) =
        [lit "a1", lit "a2", lit "a2"] ∧
      ¬ (((picksOf ["a", "b", "a", "b", "a"]).drop 1).take 2).Perm
        ((discovered twoServices (lit "a")).filter isUp) := by
  constructor
  · decide
  · intro hperm
    have hids := hperm.map (·.instanceId.val)
    exact absurd hids (by decide)

end MiniBackend.Infra.Proofs.FairLookup
