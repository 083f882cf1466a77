import MiniBackend.Infra.ServiceRegistry
import MiniBackend.Lib.Runs
import Mathlib.Logic.Function.Basic
import Mathlib.Data.List.Nodup

/-!
# When an instance id is a key

`sr_register` puts a new entry behind the others without looking at their ids, and the other
functions stop at the first entry with an id.  The id is a key as long as nobody registers
under an id that is in the table.
-/

namespace MiniBackend.Infra.Proofs.RegistryKeys

open MiniBackend.Lib.CArray MiniBackend.Lib.CString MiniBackend.Lib.Runs
open MiniBackend.Infra.Registry

abbrev Registrations := CStr → CStr → Option SrInstance

def setRegistration (latest : Registrations) (service id : CStr) (inst : Option SrInstance) :
    Registrations :=
  Function.update latest service (Function.update (latest service) id inst)

def record (latest : Registrations) (registry : SrRegistry) : Op → Registrations
  | .register inst now random =>
      if (srRegister registry inst now random).1 = 0 then
        setRegistration latest inst.serviceName (storedId inst random)
          (some (stored inst now random))
      else latest
  | .deregister serviceName instanceId =>
      if (srDeregister registry serviceName instanceId).1 = 0 then
        setRegistration latest serviceName instanceId none
      else latest
  | .heartbeat .. | .discover .. => latest

structure System where
  registry : SrRegistry
  latest : Registrations

def init : System := ⟨srRegistryCreate, fun _ _ => none⟩

def step (s : System) (op : Op) : System :=
  ⟨(apply s.registry op).2, record s.latest s.registry op⟩

/-- What `sr_discover` returns for a service. -/
def discovered (registry : SrRegistry) (service : CStr) : List SrInstance :=
  (srDiscover registry service).2

/-- Each id has one entry at most, with the data of its registration, and only the ids that
are registered have one. -/
structure Keyed (s : System) : Prop where
  unique : ∀ service, ((discovered s.registry service).map (·.instanceId.val)).Nodup
  latest : ∀ service, ∀ inst ∈ discovered s.registry service,
    ∃ registered, s.latest service inst.instanceId = some registered ∧
      inst = { registered with lastHeartbeat := inst.lastHeartbeat }
  listed : ∀ service id, (s.latest service id).isSome →
    ∃ inst ∈ discovered s.registry service, inst.instanceId.val = id
  ghosts : ∀ service id, s.latest service id = none →
    ∀ inst ∈ discovered s.registry service, inst.instanceId.val ≠ id

/-- A registration does not repeat an id, unless the table is full anyway. -/
def FreshId (s : System) : Op → Prop
  | .register inst _ random =>
      (discovered s.registry inst.serviceName).length < srMaxInstances →
        ∀ other ∈ discovered s.registry inst.serviceName,
          other.instanceId ≠ storedId inst random
  | .deregister .. | .heartbeat .. | .discover .. => True

/-! ## What the calls do to the table -/

theorem discovered_eq (registry : SrRegistry) (service : CStr) :
    discovered registry service = ((srFindService registry service).map (·.instances)).getD [] := by
  unfold discovered srDiscover
  cases srFindService registry service <;> rfl

theorem discovered_modifyService {registry : SrRegistry} {service : CStr} {svc : SrSvcEntry}
    (h : srFindService registry service = some svc) (f : List SrInstance → List SrInstance)
    (other : CStr) :
    discovered (modifyService registry service f) other =
      if other = service then f (discovered registry service) else discovered registry other := by
  rw [discovered_eq, discovered_eq, discovered_eq]
  by_cases hother : other = service
  · subst hother
    have hfind : srFindService (modifyService registry other f) other =
        (srFindService registry other).map fun svc =>
          { svc with instances := f svc.instances } := by
      apply find?_updateFirst
      exact fun _ hname => hname
    rw [if_pos rfl, hfind, h]
    rfl
  · have hfind : srFindService (modifyService registry service f) other =
        srFindService registry other := by
      apply find?_updateFirst_of_disjoint
      intro svc hname
      have hne : svc.name ≠ other := by
        rw [of_decide_eq_true hname]
        exact Ne.symm hother
      exact ⟨decide_eq_false hne, decide_eq_false hne⟩
    rw [if_neg hother, hfind]

theorem discovered_none {registry : SrRegistry} {service : CStr}
    (h : srFindService registry service = none) : discovered registry service = [] := by
  rw [discovered_eq, h]
  rfl

theorem discovered_some {registry : SrRegistry} {service : CStr} {svc : SrSvcEntry}
    (h : srFindService registry service = some svc) :
    discovered registry service = svc.instances := by
  rw [discovered_eq, h]
  rfl

theorem discovered_append {registry : SrRegistry} {service : CStr}
    (h : srFindService registry service = none) (instances : List SrInstance) (other : CStr) :
    discovered ⟨registry.services ++ [⟨service, instances⟩]⟩ other =
      if other = service then instances else discovered registry other := by
  rw [discovered_eq, discovered_eq]
  unfold srFindService at h ⊢
  rw [List.find?_append]
  by_cases hother : other = service
  · subst hother
    rw [if_pos rfl, h]
    simp
  · have hne : ¬ service = other := Ne.symm hother
    rw [if_neg hother]
    cases registry.services.find? (·.name = other) <;> simp [hne]

theorem minusOne_ne : (-1 : Int) ≠ 0 := by decide

/-- A registration that is accepted adds an entry; one for a service that has entries is
refused only when they fill the table. -/
theorem srRegister_spec (registry : SrRegistry) (inst : SrInstance) (now : Int)
    (random : Nat → UInt16) :
    ((srRegister registry inst now random).1 ≠ 0 ∧
        (srRegister registry inst now random).2 = registry ∧
        (discovered registry inst.serviceName = [] ∨
          srMaxInstances ≤ (discovered registry inst.serviceName).length)) ∨
      ((srRegister registry inst now random).1 = 0 ∧
        (discovered registry inst.serviceName).length < srMaxInstances ∧
        ∀ service, discovered (srRegister registry inst now random).2 service =
          if service = inst.serviceName then
            discovered registry inst.serviceName ++ [stored inst now random]
          else discovered registry service) := by
  unfold srRegister
  cases hfind : srFindService registry inst.serviceName with
  | none =>
      dsimp only
      split
      · exact Or.inl ⟨minusOne_ne, rfl, Or.inl (discovered_none hfind)⟩
      · have hname : strncpy inst.serviceName (srMaxNameLen - 1) = inst.serviceName :=
          strncpy_of_le (Nat.le_sub_one_of_lt inst.serviceName.property)
        refine Or.inr ⟨rfl, ?_, ?_⟩
        · rw [discovered_none hfind]
          decide
        · intro service
          dsimp only
          rw [hname, discovered_append hfind, discovered_none hfind]
          rfl
  | some svc =>
      dsimp only
      rw [discovered_some hfind]
      split
      next hfull => exact Or.inl ⟨minusOne_ne, rfl, Or.inr hfull⟩
      next hroom =>
        refine Or.inr ⟨rfl, Nat.lt_of_not_le hroom, fun service => ?_⟩
        rw [← discovered_some hfind]
        exact discovered_modifyService hfind _ service

theorem srDeregister_spec (registry : SrRegistry) (service id : CStr) :
    ((srDeregister registry service id).1 ≠ 0 ∧
        (srDeregister registry service id).2 = registry) ∨
      ((srDeregister registry service id).1 = 0 ∧
        ∀ other, discovered (srDeregister registry service id).2 other =
          if other = service then
            (discovered registry service).eraseP (·.instanceId.val = id)
          else discovered registry other) := by
  unfold srDeregister
  cases hfind : srFindService registry service with
  | none => exact Or.inl ⟨minusOne_ne, rfl⟩
  | some svc =>
      dsimp only
      split
      · exact Or.inr ⟨rfl, fun other => discovered_modifyService hfind _ other⟩
      · exact Or.inl ⟨minusOne_ne, rfl⟩

theorem srHeartbeat_spec (registry : SrRegistry) (service id : CStr) (now : Int) :
    (srHeartbeat registry service id now).2 = registry ∨
      ∀ other, discovered (srHeartbeat registry service id now).2 other =
        if other = service then
          updateFirst (·.instanceId.val = id) (beat now) (discovered registry service)
        else discovered registry other := by
  unfold srHeartbeat
  cases hfind : srFindService registry service with
  | none => exact Or.inl rfl
  | some svc =>
      dsimp only
      split
      · exact Or.inr fun other => discovered_modifyService hfind _ other
      · exact Or.inl rfl

/-! ## The table of one service -/

structure Table (latest : CStr → Option SrInstance) (instances : List SrInstance) : Prop where
  unique : (instances.map (·.instanceId.val)).Nodup
  carries : ∀ inst ∈ instances, ∃ registered, latest inst.instanceId = some registered ∧
    inst = { registered with lastHeartbeat := inst.lastHeartbeat }
  listed : ∀ id registered, latest id = some registered →
    registered.status = .up ∧ ∃ inst ∈ instances, inst.instanceId.val = id

theorem Table.append {latest : CStr → Option SrInstance} {instances : List SrInstance}
    (h : Table latest instances) {new : SrInstance} (hup : new.status = .up)
    (hfresh : ∀ other ∈ instances, other.instanceId ≠ new.instanceId) :
    Table (Function.update latest new.instanceId (some new)) (instances ++ [new]) := by
  have hne : ∀ other ∈ instances, other.instanceId.val ≠ new.instanceId.val :=
    fun other hmem heq => hfresh other hmem (Subtype.ext heq)
  refine ⟨?_, ?_, ?_⟩
  · rw [List.map_append, List.nodup_append]
    refine ⟨h.unique, List.nodup_singleton _, ?_⟩
    intro a ha b hb
    obtain ⟨other, hmem, rfl⟩ := List.mem_map.mp ha
    rw [List.map_singleton, List.mem_singleton] at hb
    rw [hb]
    exact hne other hmem
  · intro inst hmem
    cases List.mem_append.mp hmem with
    | inl hold =>
        rw [Function.update_of_ne (hne inst hold)]
        exact h.carries inst hold
    | inr hnew =>
        rw [List.mem_singleton.mp hnew]
        exact ⟨new, Function.update_self .., rfl⟩
  · intro id registered hlatest
    by_cases hid : id = new.instanceId.val
    · subst hid
      rw [Function.update_self] at hlatest
      cases hlatest
      exact ⟨hup, new, List.mem_append_right _ (List.mem_singleton_self _), rfl⟩
    · rw [Function.update_of_ne hid] at hlatest
      obtain ⟨hstatus, inst, hmem, hinst⟩ := h.listed id registered hlatest
      exact ⟨hstatus, inst, List.mem_append_left _ hmem, hinst⟩

theorem Table.erase {latest : CStr → Option SrInstance} {instances : List SrInstance}
    (h : Table latest instances) (id : CStr) :
    Table (Function.update latest id none)
      (instances.eraseP (·.instanceId.val = id)) := by
  rw [eraseP_eq_filter (pairwise_of_nodup_map h.unique id)]
  refine ⟨h.unique.sublist (List.filter_sublist.map _), ?_, ?_⟩
  · intro inst hmem
    obtain ⟨hold, hne⟩ := List.mem_filter.mp hmem
    rw [Function.update_of_ne (by simpa using hne)]
    exact h.carries inst hold
  · intro other registered hlatest
    by_cases hother : other = id
    · rw [hother, Function.update_self] at hlatest
      contradiction
    · rw [Function.update_of_ne hother] at hlatest
      obtain ⟨hstatus, inst, hmem, hinst⟩ := h.listed other registered hlatest
      refine ⟨hstatus, inst, List.mem_filter.mpr ⟨hmem, ?_⟩, hinst⟩
      simpa [hinst] using hother

theorem beat_of_up {inst : SrInstance} (h : inst.status = .up) (now : Int) :
    beat now inst = { inst with lastHeartbeat := now } := by
  unfold beat
  rw [h]
  rfl

theorem Table.beat {latest : CStr → Option SrInstance} {instances : List SrInstance}
    (h : Table latest instances) (id : CStr) (now : Int) :
    Table latest (updateFirst (·.instanceId.val = id) (beat now) instances) := by
  rw [updateFirst_eq_map (pairwise_of_nodup_map h.unique id)]
  let beaten : SrInstance → SrInstance :=
    fun inst => if inst.instanceId.val = id then Registry.beat now inst else inst
  have hid : ∀ inst, (beaten inst).instanceId = inst.instanceId := by
    intro inst
    dsimp only [beaten]
    split <;> rfl
  have hmap : ∀ l : List SrInstance,
      l.map (fun inst => if decide (inst.instanceId.val = id) = true then
        Registry.beat now inst else inst) = l.map beaten := by
    intro l
    simp only [decide_eq_true_eq, beaten]
  rw [hmap]
  refine ⟨?_, ?_, ?_⟩
  · rw [List.map_map]
    have hsame : (instances.map ((fun inst : SrInstance => inst.instanceId.val) ∘ beaten)) =
        instances.map (·.instanceId.val) :=
      List.map_congr_left fun inst _ => congrArg Subtype.val (hid inst)
    rw [hsame]
    exact h.unique
  · intro inst hmem
    obtain ⟨old, hold, rfl⟩ := List.mem_map.mp hmem
    obtain ⟨registered, hlatest, heq⟩ := h.carries old hold
    rw [hid]
    refine ⟨registered, hlatest, ?_⟩
    have hup : old.status = .up := by
      rw [heq]
      exact (h.listed _ _ hlatest).1
    dsimp only [beaten]
    split
    · rw [beat_of_up hup]
      exact congrArg (fun inst : SrInstance => { inst with lastHeartbeat := now }) heq
    · exact heq
  · intro other registered hlatest
    obtain ⟨hstatus, inst, hmem, hinst⟩ := h.listed other registered hlatest
    exact ⟨hstatus, beaten inst, List.mem_map_of_mem hmem,
      (congrArg Subtype.val (hid inst)).trans hinst⟩

/-! ## Runs -/

def Tables (s : System) : Prop :=
  ∀ service, Table (s.latest service) (discovered s.registry service)

theorem tables_init : Tables init := by
  intro service
  refine ⟨List.nodup_nil, fun inst hmem => absurd hmem List.not_mem_nil, ?_⟩
  intro id registered hlatest
  contradiction

theorem Tables.keyed {s : System} (h : Tables s) : Keyed s where
  unique service := (h service).unique
  latest service := (h service).carries
  listed service id hsome := by
    obtain ⟨registered, hlatest⟩ := Option.isSome_iff_exists.mp hsome
    exact ((h service).listed id registered hlatest).2
  ghosts service id hnone inst hmem heq := by
    obtain ⟨registered, hlatest, _⟩ := (h service).carries inst hmem
    rw [heq, hnone] at hlatest
    contradiction

theorem Tables.update {s : System} (h : Tables s) {service : CStr} {registry : SrRegistry}
    {latest : CStr → Option SrInstance} {instances : List SrInstance}
    (hregistry : ∀ other, discovered registry other =
      if other = service then instances else discovered s.registry other)
    (htable : Table latest instances) :
    Tables ⟨registry, Function.update s.latest service latest⟩ := by
  intro other
  show Table (Function.update s.latest service latest other) (discovered registry other)
  rw [hregistry]
  by_cases hother : other = service
  · rw [hother, if_pos rfl, Function.update_self]
    exact htable
  · rw [if_neg hother, Function.update_of_ne hother]
    exact h other

theorem Tables.step {s : System} (h : Tables s) {op : Op} (hfresh : FreshId s op) :
    Tables (step s op) := by
  cases op with
  | register inst now random =>
      show Tables ⟨(srRegister s.registry inst now random).2, if _ then _ else _⟩
      rcases srRegister_spec s.registry inst now random with ⟨hresult, hsame, _⟩ |
        ⟨hresult, hroom, htable⟩
      · rw [if_neg hresult, hsame]
        exact h
      · have hup : (stored inst now random).status = .up := rfl
        rw [if_pos hresult]
        exact h.update htable ((h inst.serviceName).append hup (hfresh hroom))
  | deregister service id =>
      show Tables ⟨(srDeregister s.registry service id).2, if _ then _ else _⟩
      rcases srDeregister_spec s.registry service id with ⟨hresult, hsame⟩ | ⟨hresult, htable⟩
      · rw [if_neg hresult, hsame]
        exact h
      · rw [if_pos hresult]
        exact h.update htable ((h service).erase id)
  | heartbeat service id now =>
      show Tables ⟨(srHeartbeat s.registry service id now).2, s.latest⟩
      rcases srHeartbeat_spec s.registry service id now with hsame | htable
      · rw [hsame]
        exact h
      · rw [← Function.update_eq_self service s.latest]
        exact h.update htable ((h service).beat id now)
  | discover service => exact h

theorem freshId_of_keyed {s : System} {op : Op} (h : Keyed (step s op)) : FreshId s op := by
  cases op with
  | register inst now random =>
      intro hroom other hmem heq
      rcases srRegister_spec s.registry inst now random with ⟨_, _, hempty | hfull⟩ |
        ⟨_, _, htable⟩
      · rw [hempty] at hmem
        exact absurd hmem List.not_mem_nil
      · exact absurd hroom (Nat.not_lt.mpr hfull)
      · have hunique : ((discovered (srRegister s.registry inst now random).2
            inst.serviceName).map (·.instanceId.val)).Nodup := h.unique inst.serviceName
        rw [htable, if_pos rfl, List.map_append, List.nodup_append] at hunique
        apply hunique.2.2 _ (List.mem_map_of_mem hmem) _ (List.mem_singleton_self _)
        exact congrArg Subtype.val heq
  | deregister service id => trivial
  | heartbeat service id now => trivial
  | discover service => trivial

/-- The ids are keys throughout a run exactly when no registration repeats an id. -/
theorem keyed_iff_freshId (ops : List Op) :
    (∀ n, Keyed (run step init (ops.take n))) ↔ Always step FreshId init ops := by
  constructor
  · exact always_of_prefixes RegistryKeys.step fun _ _ hkeyed => freshId_of_keyed hkeyed
  · intro hfresh n
    have htables : Tables (run RegistryKeys.step init (ops.take n)) :=
      run_invariant _ (fun _ _ h hop => h.step hop) tables_init (hfresh.take _ n)
    exact htables.keyed

def restarted : SrInstance where
  serviceName := ⟨lit "orders", by decide⟩
  instanceId := ⟨lit "i1", by decide⟩
  host := ⟨lit "10.0.0.1", by decide⟩
  port := 8080
  healthUrl := ⟨[], by decide⟩
  metadata := ⟨[], by decide⟩
  weight := 1
  registerTime := 0
  lastHeartbeat := 0
  heartbeatInterval := 0
  ttlSeconds := 0
  status := .up

/-- An instance registers, registers again after a restart, and is deregistered. -/
def restart : List Op :=
  [.register restarted 0 fun _ => 0, .register restarted 5 fun _ => 0,
    .deregister (lit "orders") (lit "i1")]

/-- The second registration is a second entry, and one of them outlives the
deregistration. -/
theorem restart_leaves_ghost :
    (apply (run step init (restart.take 2)).registry
        (.deregister (lit "orders") (lit "i1"))).1 = 0 ∧
      (discovered (run step init (restart.take 2)).registry (lit "orders")).length = 2 ∧
      (discovered (run step init restart).registry (lit "orders")).map (·.instanceId.val) =
        [lit "i1"] ∧
      ¬ ∀ n, Keyed (run step init (restart.take n)) := by
  refine ⟨by decide, by decide, by decide, ?_⟩
  intro hkeyed
  have hunique := (hkeyed 2).unique (lit "orders")
  exact absurd hunique (by decide)

end MiniBackend.Infra.Proofs.RegistryKeys
