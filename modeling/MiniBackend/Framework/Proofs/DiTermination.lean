import MiniBackend.Lib.Runs
import MiniBackend.Framework.Proofs.DiResolution

/-!
# When a resolution ends

A resolution visits the dependencies of a service in their order, up to the first one that
cannot be resolved.  It ends exactly when these visits lead into no cycle.  The services that
can be resolved at all are those with a finite tree of dependencies.
-/

namespace MiniBackend.Framework.Proofs.DiTermination

open MiniBackend.Lib MiniBackend.Lib.CString MiniBackend.Lib.Digraph MiniBackend.Lib.Runs
open MiniBackend.Framework.Di MiniBackend.Framework.Proofs.DiResolution

/-- The arguments of a registration. -/
structure Registration where
  name : CStr
  typeName : CStr
  scope : DIScope
  deps : List (Option CStr)

def register (c : DIContainer) (r : Registration) : DIContainer :=
  (diRegister c r.name r.typeName r.scope r.deps).2

/-- The service can be built from the bottom up.  An empty dependency may be missing. -/
inductive Resolvable (c : DIContainer) : CStr → Prop
  | intro {name : CStr} {i : Nat} (hfind : diFindEntry c name = some i)
      (hdeps : ∀ dep ∈ depsAt c i, dep ≠ [] → Resolvable c dep) : Resolvable c name

def Buildable (c : DIContainer) (i : Nat) : Prop :=
  ∀ dep ∈ depsAt c i, dep ≠ [] → Resolvable c dep

theorem Resolvable.buildable {c : DIContainer} {name : CStr} (h : Resolvable c name) {i : Nat}
    (hfind : diFindEntry c name = some i) : Buildable c i := by
  cases h with
  | intro hfind' hdeps =>
      obtain rfl := Option.some.inj (hfind.symm.trans hfind')
      exact hdeps

def Visits (c : DIContainer) (i j : Nat) : Prop :=
  ∃ l₁ dep l₂, depsAt c i = l₁ ++ dep :: l₂ ∧ (∀ d ∈ l₁, d ≠ [] → Resolvable c d) ∧
    diFindEntry c dep = some j

theorem Visits.lt {c : DIContainer} {i j : Nat} (h : Visits c i j) : j < c.entries.length := by
  obtain ⟨l₁, dep, l₂, -, -, hdep⟩ := h
  exact diFindEntry_lt hdep

/-- The visits from the service with the name lead into a cycle. -/
def VisitsCycle (c : DIContainer) (name : CStr) : Prop :=
  ∃ i, diFindEntry c name = some i ∧ ReachesCycle (Visits c) i

/-- Whatever the factories return, the resolution ends, and with `NULL` if the service depends
on a cycle. -/
def ResolvesSafely (c : DIContainer) (name : CStr) : Prop :=
  ∀ factories, ∃ inst c', (∃ depth, ∀ fuel ≥ depth,
    diResolve factories fuel c name = some (inst, c')) ∧ (CycleBelow c name → inst = none)

/-! ## What is kept in the container -/

structure Memo (c₀ : DIContainer) (good : Nat → Prop) (c : DIContainer) : Prop where
  same : SameServices c₀ c
  noRequest : c.inRequest = false
  initialized : ∀ i entry, c.entries[i]? = some entry → entry.initialized = true →
    entry.inst ≠ none ∧ good i

section Memo

variable {c₀ : DIContainer} {good : Nat → Prop}

theorem Memo.atDepth {c : DIContainer} (h : Memo c₀ good c) (depth : Int) :
    Memo c₀ good (atDepth depth c) := ⟨h.same.trans ⟨rfl, rfl⟩, h.noRequest, h.initialized⟩

theorem Memo.logCall {c : DIContainer} (h : Memo c₀ good c) (call : FactoryCall) :
    Memo c₀ good (logCall call c) := ⟨h.same.trans ⟨rfl, rfl⟩, h.noRequest, h.initialized⟩

theorem Memo.store {c : DIContainer} (h : Memo c₀ good c) {c₁ : DIContainer}
    (hrequest : c₁.inRequest = false) {i : Nat} {inst : Option Instance}
    (hgood : inst ≠ none → good i) : Memo c₀ good (store c₁ i inst c) := by
  have hsame := h.same.trans (sameServices_store c₁ i inst c)
  refine ⟨hsame, ?_, fun j entry hentry hinit => ?_⟩
  · rw [hsame.inRequest_eq, ← h.same.inRequest_eq, h.noRequest]
  · by_cases hscope : ScopeAt c₁ i .singleton
    · rw [DiResolution.store, if_pos hscope, setInstance] at hentry
      rw [List.getElem?_modify] at hentry
      by_cases hij : i = j
      · simp only [hij, if_true] at hentry
        obtain ⟨entry', -, rfl⟩ := Option.map_eq_some_iff.mp hentry
        have hinst : inst ≠ none := Option.isSome_iff_ne_none.mp hinit
        exact ⟨hinst, hij ▸ hgood hinst⟩
      · simp only [hij, if_false, id_map'] at hentry
        exact h.initialized j entry hentry hinit
    · rw [DiResolution.store, if_neg hscope, if_neg (by simp [hrequest])] at hentry
      exact h.initialized j entry hentry hinit

theorem Memo.cached {c : DIContainer} (h : Memo c₀ good c) {name : CStr} {i : Nat}
    (hfind : diFindEntry c name = some i) {inst : Option Instance}
    (hcached : cached c i = some inst) : inst ≠ none ∧ good i := by
  have hlt := diFindEntry_lt hfind
  have hentry := List.getElem?_eq_getElem hlt
  rw [DiResolution.cached, hentry] at hcached
  dsimp only at hcached
  cases hscope : c.entries[i].scope with
  | singleton =>
      rw [hscope] at hcached
      by_cases hinit : c.entries[i].initialized = true
      · simp only [hinit, if_true] at hcached
        rw [← Option.some.inj hcached]
        exact h.initialized i _ hentry hinit
      · simp [hinit] at hcached
  | transient =>
      rw [hscope] at hcached
      exact absurd hcached (by simp)
  | request =>
      rw [hscope] at hcached
      simp [h.noRequest] at hcached

end Memo

/-! ## Resolved services are resolvable -/

theorem diResolve_sound {factories : Factories} {c₀ : DIContainer} {fuel : Nat}
    {c c' : DIContainer} {name : CStr} {inst : Option Instance} (hmemo : Memo c₀ (Buildable c₀) c)
    (h : diResolve factories fuel c name = some (inst, c')) :
    Memo c₀ (Buildable c₀) c' ∧ (inst ≠ none → Resolvable c₀ name) := by
  induction fuel generalizing c c' name inst with
  | zero => exact absurd h (by simp [diResolve])
  | succ fuel ih =>
      rcases diResolve_cases h with ⟨-, rfl, rfl⟩ | ⟨i, hfind, hcase⟩
      · exact ⟨hmemo, fun hne => absurd rfl hne⟩
      have hresolvable : Buildable c₀ i → Resolvable c₀ name :=
        fun hbuild => .intro ((hmemo.same.diFindEntry_eq name).symm.trans hfind) hbuild
      rcases hcase with ⟨hcached, rfl⟩ | ⟨-, c₁, hcase⟩
      · obtain ⟨-, hgood⟩ := hmemo.cached hfind hcached
        exact ⟨hmemo, fun _ => hresolvable hgood⟩
      have hloop : ∀ {res}, buildDeps (diResolve factories fuel) (depsAt c i) []
          (DiResolution.atDepth 1 c) = some (res, c₁) → _ := fun hdeps =>
        buildDeps_rule (I := Memo c₀ (Buildable c₀))
          (Q := fun dep inst _ => inst ≠ none → Resolvable c₀ dep)
          (fun _ _ _ _ _ hmemo hr =>
            ⟨(ih hmemo hr).1, (ih hmemo hr).2, fun _ _ h => h⟩) (hmemo.atDepth 1) hdeps
      rcases hcase with ⟨hdeps, rfl, rfl⟩ | ⟨insts, hdeps, -, rfl⟩
      · have hmemo₁ := (hloop hdeps).1
        exact ⟨(hmemo₁.atDepth _).store hmemo.noRequest fun hne => absurd rfl hne,
          fun hne => absurd rfl hne⟩
      · obtain ⟨hmemo₁, ⟨insts', heq, hall⟩ | ⟨heq, -⟩⟩ := hloop hdeps
        · have hbuild : Buildable c₀ i := by
            intro dep hdep hne
            rw [← hmemo.same.depsAt_eq] at hdep
            obtain ⟨k, hk, rfl⟩ := List.mem_iff_getElem.mp hdep
            obtain ⟨hQ, hempty⟩ := hall.get hk (hall.length_eq ▸ hk)
            exact hQ fun hnone => hne (hempty hnone)
          exact ⟨((hmemo₁.atDepth _).logCall _).store hmemo.noRequest fun _ => hbuild,
            fun _ => hresolvable hbuild⟩
        · exact absurd heq (by simp)

theorem diResolve_ends {factories : Factories} {c₀ : DIContainer} {name : CStr}
    (hfresh : Memo c₀ (Buildable c₀) c₀) (hvisits : ¬VisitsCycle c₀ name) :
    ∃ r, ∃ depth, ∀ fuel ≥ depth, diResolve factories fuel c₀ name = some r := by
  cases hfind : diFindEntry c₀ name with
  | none =>
      refine ⟨(none, c₀), 1, fun fuel hfuel => ?_⟩
      obtain ⟨fuel, rfl⟩ : ∃ m, fuel = m + 1 := ⟨fuel - 1, by omega⟩
      rw [diResolve_succ, hfind]
  | some i =>
      have hacc : Acc (Function.swap (Visits c₀)) i :=
        (acc_swap_iff (finite_services c₀) (fun _ _ h => h.lt) i).mpr
          fun hcycle => hvisits ⟨i, hfind, hcycle⟩
      have hreturns : ∀ᶠ fuel in Filter.atTop, ∀ c name, Memo c₀ (Buildable c₀) c →
          diFindEntry c name = some i → ∃ r, diResolve factories fuel c name = some r := by
        refine diResolve_returns factories (Q := Resolvable c₀) (n := c₀.entries.length)
          (fun _ _ _ _ _ hmemo hr => diResolve_sound hmemo hr)
          (fun _ depth hmemo => hmemo.atDepth depth) (fun _ hmemo => hmemo.same.length_eq)
          (fun c i l₁ dep l₂ j hmemo hdeps hl₁ hdep => ?_) hacc
        rw [hmemo.same.depsAt_eq] at hdeps
        rw [hmemo.same.diFindEntry_eq] at hdep
        exact ⟨l₁, dep, l₂, hdeps, hl₁, hdep⟩
      obtain ⟨depth, hdepth⟩ := Filter.eventually_atTop.mp hreturns
      obtain ⟨r, hr⟩ := hdepth depth (Nat.le_refl depth) c₀ name hfresh hfind
      exact ⟨r, depth, fun fuel hfuel => diResolve_mono hfuel hr⟩

/-! ## What a resolution that ends says about the services -/

theorem mem_of_stop {α : Type*} {l₁ l₂ m₁ m₂ : List α} {stop d : α}
    (h : l₁ ++ stop :: l₂ = m₁ ++ d :: m₂) (hstop : stop ∉ m₁) : d ∈ l₁ ++ [stop] := by
  rcases List.append_eq_append_iff.mp h with ⟨as, rfl, heq⟩ | ⟨as, rfl, heq⟩
  · cases as with
    | nil => simp [(List.cons.inj heq).1]
    | cons a as =>
        obtain rfl := (List.cons.inj heq).1
        exact absurd (by simp) hstop
  · cases as with
    | nil => simp [(List.cons.inj heq).1]
    | cons a as =>
        obtain rfl := (List.cons.inj heq).1
        simp

theorem diResolve_complete {c₀ : DIContainer} {fuel : Nat} {c c' : DIContainer} {name : CStr}
    {inst : Option Instance}
    (hmemo : Memo c₀ (Acc (Function.swap (Visits c₀))) c)
    (h : diResolve (fun _ _ _ => some 0) fuel c name = some (inst, c')) :
    Memo c₀ (Acc (Function.swap (Visits c₀))) c' ∧
      (∀ i, diFindEntry c₀ name = some i → Acc (Function.swap (Visits c₀)) i) ∧
      (Resolvable c₀ name → inst ≠ none) := by
  induction fuel generalizing c c' name inst with
  | zero => exact absurd h (by simp [diResolve])
  | succ fuel ih =>
      rcases diResolve_cases h with ⟨hnone, -, rfl⟩ | ⟨i, hfind, hcase⟩
      · rw [hmemo.same.diFindEntry_eq] at hnone
        refine ⟨hmemo, fun i hi => ?_, fun hres => ?_⟩
        · rw [hnone] at hi
          exact absurd hi (by simp)
        · cases hres with
          | intro hi _ =>
              rw [hnone] at hi
              exact absurd hi (by simp)
      rw [hmemo.same.diFindEntry_eq] at hfind
      have hunique : ∀ {j}, diFindEntry c₀ name = some j → j = i := fun hj =>
        Option.some.inj (hj.symm.trans hfind)
      rcases hcase with ⟨hcached, rfl⟩ | ⟨-, c₁, hcase⟩
      · obtain ⟨hne, hacc⟩ := hmemo.cached ((hmemo.same.diFindEntry_eq name).trans hfind) hcached
        exact ⟨hmemo, fun j hj => hunique hj ▸ hacc, fun _ => hne⟩
      have hloop : ∀ {res}, buildDeps (diResolve (fun _ _ _ => some 0) fuel) (depsAt c i) []
          (DiResolution.atDepth 1 c) = some (res, c₁) → _ := fun hdeps =>
        buildDeps_rule (I := Memo c₀ (Acc (Function.swap (Visits c₀))))
          (Q := fun dep inst _ =>
            (∀ j, diFindEntry c₀ dep = some j → Acc (Function.swap (Visits c₀)) j) ∧
              (Resolvable c₀ dep → inst ≠ none))
          (fun _ _ _ _ _ hmemo hr =>
            ⟨(ih hmemo hr).1, (ih hmemo hr).2, fun _ _ h => h⟩) (hmemo.atDepth 1) hdeps
      rcases hcase with ⟨hdeps, rfl, rfl⟩ | ⟨insts, hdeps, rfl, rfl⟩
      · obtain ⟨hmemo₁, ⟨insts', heq, -⟩ | ⟨-, l₁, dep, l₂, hsplit, hne, hQ, hl₁⟩⟩ := hloop hdeps
        · exact absurd heq (by simp)
        rw [hmemo.same.depsAt_eq] at hsplit
        have hstuck : ¬Resolvable c₀ dep := fun hres => hQ.2 hres rfl
        refine ⟨(hmemo₁.atDepth _).store hmemo.noRequest fun hne => absurd rfl hne, ?_, ?_⟩
        · intro j hj
          rw [hunique hj]
          refine Acc.intro i fun k hk => ?_
          obtain ⟨m₁, d, m₂, hsplit', hm₁, hd⟩ := hk
          have hmem : d ∈ l₁ ++ [dep] :=
            mem_of_stop (hsplit.symm.trans hsplit') fun hin => hstuck (hm₁ dep hin hne)
          rcases List.mem_append.mp hmem with hmem | hmem
          · obtain ⟨_, hQ', -⟩ := hl₁ d hmem
            exact hQ'.1 k hd
          · obtain rfl := List.mem_singleton.mp hmem
            exact hQ.1 k hd
        · intro hres
          exact absurd (hres.buildable hfind dep (by simp [hsplit]) hne) hstuck
      · obtain ⟨hmemo₁, ⟨insts', -, hall⟩ | ⟨heq, -⟩⟩ := hloop hdeps
        · have hacc : Acc (Function.swap (Visits c₀)) i := by
            refine Acc.intro i fun k hk => ?_
            obtain ⟨m₁, d, m₂, hsplit, -, hd⟩ := hk
            have hmem : d ∈ depsAt c i := by simp [hmemo.same.depsAt_eq, hsplit]
            obtain ⟨n, hn, rfl⟩ := List.mem_iff_getElem.mp hmem
            exact (hall.get hn (hall.length_eq ▸ hn)).1.1 k hd
          exact ⟨((hmemo₁.atDepth _).logCall _).store hmemo.noRequest fun _ => hacc,
            fun j hj => hunique hj ▸ hacc, fun _ => by simp⟩
        · exact absurd heq (by simp)

theorem not_visitsCycle_of_ends {c : DIContainer}
    (hfresh : Memo c (Acc (Function.swap (Visits c))) c) {fuel : Nat} {name : CStr}
    {r : Option Instance × DIContainer}
    (h : diResolve (fun _ _ _ => some 0) fuel c name = some r) : ¬VisitsCycle c name := by
  rintro ⟨i, hfind, hcycle⟩
  have hacc := (diResolve_complete hfresh h).2.1 i hfind
  exact (acc_swap_iff (finite_services c) (fun _ _ h => h.lt) i).mp hacc hcycle

/-! ## Registered containers -/

structure Unresolved (c : DIContainer) : Prop where
  noRequest : c.inRequest = false
  uninitialized : ∀ entry ∈ c.entries, entry.initialized = false

theorem Unresolved.memo {c : DIContainer} (h : Unresolved c) (good : Nat → Prop) :
    Memo c good c := by
  refine ⟨.refl c, h.noRequest, fun i entry hentry hinit => ?_⟩
  rw [h.uninitialized entry (List.mem_of_getElem? hentry)] at hinit
  exact absurd hinit (by decide)

theorem Unresolved.register {c : DIContainer} (h : Unresolved c) (r : Registration) :
    Unresolved (register c r) := by
  rw [DiTermination.register, diRegister]
  split
  · exact h
  · split
    · exact h
    · refine ⟨h.noRequest, fun entry hentry => ?_⟩
      rcases List.mem_append.mp hentry with hentry | hentry
      · exact h.uninitialized entry hentry
      · rw [List.mem_singleton.mp hentry]

theorem unresolved_run (rs : List Registration) : Unresolved (run register diInit rs) := by
  have hinit : Unresolved diInit := ⟨rfl, by simp [diInit]⟩
  exact run_keeps register (fun _ r h => h.register r) hinit rs

/-- After any registrations a resolution is safe exactly when its visits lead into no cycle,
and when a service above a cycle cannot be built: it could be if an empty dependency, which may
fail, is all that leads to the cycle. -/
theorem resolvesSafely_iff (rs : List Registration) (name : CStr) :
    ResolvesSafely (run register diInit rs) name ↔
      ¬VisitsCycle (run register diInit rs) name ∧
        (CycleBelow (run register diInit rs) name →
          ¬Resolvable (run register diInit rs) name) := by
  have hfresh := unresolved_run rs
  generalize run register diInit rs = c at hfresh
  constructor
  · intro h
    obtain ⟨inst, c', ⟨depth, hends⟩, hnull⟩ := h fun _ _ _ => some 0
    have hr := hends depth (Nat.le_refl depth)
    refine ⟨not_visitsCycle_of_ends (hfresh.memo _) hr, fun hcycle hres => ?_⟩
    exact (diResolve_complete (hfresh.memo _) hr).2.2 hres (hnull hcycle)
  · rintro ⟨hvisits, hcycle⟩ factories
    obtain ⟨⟨inst, c'⟩, depth, hends⟩ := diResolve_ends (hfresh.memo _) hvisits
    refine ⟨inst, c', ⟨depth, hends⟩, fun hbelow => ?_⟩
    by_contra hne
    have hsound := diResolve_sound (hfresh.memo _) (hends depth (Nat.le_refl depth))
    exact hcycle hbelow (hsound.2 hne)

/-! ## Two services that depend on each other -/

def mutualServices : List Registration :=
  [⟨lit "a", lit "A", .singleton, [some (lit "b")]⟩,
    ⟨lit "b", lit "B", .singleton, [some (lit "a")]⟩]

/-- The resolution of `a` does not end. -/
theorem mutual_services_never_resolve :
    ¬∀ rs name, ResolvesSafely (run register diInit rs) name := by
  intro h
  obtain ⟨inst, c', ⟨depth, hends⟩, -⟩ := h mutualServices (lit "a") fun _ _ _ => some 0
  refine not_visitsCycle_of_ends ((unresolved_run mutualServices).memo _)
    (hends depth (Nat.le_refl depth)) ⟨0, by decide, 0, .refl, ?_⟩
  have hab : Visits (run register diInit mutualServices) 0 1 :=
    ⟨[], lit "b", [], by decide, by simp, by decide⟩
  have hba : Visits (run register diInit mutualServices) 1 0 :=
    ⟨[], lit "a", [], by decide, by simp, by decide⟩
  exact .head hab (.single hba)

end MiniBackend.Framework.Proofs.DiTermination
