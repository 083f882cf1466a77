import Mathlib.Data.Finset.Card
import MiniBackend.Framework.Proofs.DiResolution
import MiniBackend.Lib.Runs
import MiniBackend.Framework.Proofs.DiOrder

/-!
# The cycle check

The depth-first search over the dependencies.  The services in progress all lead to the one
that is visited, and no cycle can be reached from a service that has been left behind.
-/

namespace MiniBackend.Framework.Proofs.DiBulk

section DiCycles

open Relation
open MiniBackend.Lib.CString MiniBackend.Lib.Digraph MiniBackend.Framework.Di
open MiniBackend.Framework.Proofs.DiResolution

def whites (c : DIContainer) (colors : Nat → Color) : Finset Nat :=
  (Finset.range c.entries.length).filter fun i => colors i = .white

theorem whites_subset {c : DIContainer} {colors colors' : Nat → Color}
    (h : ∀ i, colors' i = .white → colors i = .white) : whites c colors' ⊆ whites c colors :=
  Finset.monotone_filter_right _ fun i _ => h i

theorem card_whites_gray {c : DIContainer} {colors : Nat → Color} {i : Nat}
    (hi : i < c.entries.length) (hwhite : colors i = .white) :
    (whites c (Function.update colors i .gray)).card < (whites c colors).card := by
  apply Finset.card_lt_card
  refine (Finset.ssubset_iff_of_subset (whites_subset fun j hj => ?_)).mpr ⟨i, ?_, ?_⟩
  · by_cases hji : j = i
    · exact hji ▸ hwhite
    · rwa [Function.update_of_ne hji] at hj
  · exact Finset.mem_filter.mpr ⟨Finset.mem_range.mpr hi, hwhite⟩
  · simp [whites]

structure Grows (colors colors' : Nat → Color) : Prop where
  gray_iff : ∀ i, colors' i = .gray ↔ colors i = .gray
  black : ∀ i, colors i = .black → colors' i = .black

theorem Grows.refl (colors : Nat → Color) : Grows colors colors := ⟨fun _ => Iff.rfl, fun _ h => h⟩

theorem Grows.trans {colors colors' colors'' : Nat → Color} (h : Grows colors colors')
    (h' : Grows colors' colors'') : Grows colors colors'' :=
  ⟨fun i => (h'.gray_iff i).trans (h.gray_iff i), fun i hi => h'.black i (h.black i hi)⟩

theorem Grows.white {colors colors' : Nat → Color} (h : Grows colors colors') {i : Nat}
    (hi : colors' i = .white) : colors i = .white := by
  cases hcolor : colors i with
  | white => rfl
  | gray => exact absurd (hi.symm.trans ((h.gray_iff i).mpr hcolor)) (by decide)
  | black => exact absurd (hi.symm.trans (h.black i hcolor)) (by decide)

def Clean (c : DIContainer) (colors : Nat → Color) : Prop :=
  ∀ i, colors i = .black → ¬ReachesCycle (DependsOn c) i

def VisitSpec (c : DIContainer) (fuel : Nat) : Prop :=
  ∀ colors i, i < c.entries.length → colors i = .white → Clean c colors →
    (∀ g, colors g = .gray → TransGen (DependsOn c) g i) → (whites c colors).card ≤ fuel →
    ((diCycleDfs c fuel colors i).1 = true ∧ ReachesCycle (DependsOn c) i) ∨
      ((diCycleDfs c fuel colors i).1 = false ∧ Clean c (diCycleDfs c fuel colors i).2 ∧
        Grows colors (diCycleDfs c fuel colors i).2 ∧ (diCycleDfs c fuel colors i).2 i = .black)

/-- The loop over the dependencies of a service in progress. -/
theorem cycleDeps_spec {c : DIContainer} {fuel : Nat} (ih : VisitSpec c fuel) {i : Nat}
    (deps : List CStr) (hdeps : ∀ dep ∈ deps, dep ∈ depsAt c i) {colors : Nat → Color}
    (hclean : Clean c colors) (hgray : colors i = .gray)
    (hgrays : ∀ g, colors g = .gray → g = i ∨ TransGen (DependsOn c) g i)
    (hwhites : (whites c colors).card ≤ fuel) :
    ∃ colors', (cycleDeps c (diCycleDfs c fuel) deps colors = (true, colors') ∧
        ReachesCycle (DependsOn c) i) ∨
      (cycleDeps c (diCycleDfs c fuel) deps colors = (false, colors') ∧ Clean c colors' ∧
        Grows colors colors' ∧
        ∀ dep ∈ deps, ∀ j, diFindEntry c dep = some j → colors' j = .black) := by
  induction deps generalizing colors with
  | nil => exact ⟨colors, .inr ⟨rfl, hclean, .refl colors, by simp⟩⟩
  | cons dep rest ihdeps =>
      have hrest : ∀ d ∈ rest, d ∈ depsAt c i := fun d hd => hdeps d (List.mem_cons_of_mem dep hd)
      -- the rest of the loop, once nothing is to be feared from this dependency
      have hloop : ∀ colors₁, Clean c colors₁ → Grows colors colors₁ →
          (∀ j, diFindEntry c dep = some j → colors₁ j = .black) →
          ∃ colors', (cycleDeps c (diCycleDfs c fuel) rest colors₁ = (true, colors') ∧
              ReachesCycle (DependsOn c) i) ∨
            (cycleDeps c (diCycleDfs c fuel) rest colors₁ = (false, colors') ∧ Clean c colors' ∧
              Grows colors colors' ∧
              ∀ d ∈ dep :: rest, ∀ j, diFindEntry c d = some j → colors' j = .black) := by
        intro colors₁ hclean₁ hgrows₁ hdep
        have hwhites₁ : (whites c colors₁).card ≤ fuel :=
          (Finset.card_le_card (whites_subset fun _ h => hgrows₁.white h)).trans hwhites
        obtain ⟨colors', hcycle | ⟨heq, hclean', hgrows, hblack⟩⟩ :=
          ihdeps hrest hclean₁ ((hgrows₁.gray_iff i).mpr hgray)
            (fun g hg => hgrays g ((hgrows₁.gray_iff g).mp hg)) hwhites₁
        · exact ⟨colors', .inl hcycle⟩
        · refine ⟨colors', .inr ⟨heq, hclean', hgrows₁.trans hgrows, fun d hd j hj => ?_⟩⟩
          rcases List.mem_cons.mp hd with rfl | hd
          · exact hgrows.black j (hdep j hj)
          · exact hblack d hd j hj
      rw [cycleDeps]
      cases hfind : diFindEntry c dep with
      | none => exact hloop colors hclean (.refl colors) (by simp [hfind])
      | some j =>
          have hedge : DependsOn c i j := ⟨dep, hdeps dep List.mem_cons_self, hfind⟩
          have honly : ∀ k, diFindEntry c dep = some k → k = j := fun k hk =>
            Option.some.inj (hk.symm.trans hfind)
          dsimp only
          cases hcolor : colors j with
          | gray =>
              refine ⟨colors, .inl ⟨rfl, i, .refl, ?_⟩⟩
              rcases hgrays j hcolor with rfl | hpath
              · exact .single hedge
              · exact .head hedge hpath
          | white =>
              have hgraysj : ∀ g, colors g = .gray → TransGen (DependsOn c) g j := by
                intro g hg
                rcases hgrays g hg with rfl | hpath
                · exact .single hedge
                · exact hpath.tail hedge
              have hvisit := ih colors j (diFindEntry_lt hfind) hcolor hclean hgraysj hwhites
              generalize diCycleDfs c fuel colors j = found at hvisit
              obtain ⟨found, colors₁⟩ := found
              rcases hvisit with ⟨rfl, hcycle⟩ | ⟨rfl, hclean₁, hgrows₁, hblack₁⟩
              · exact ⟨colors₁, .inl ⟨rfl, hcycle.head hedge⟩⟩
              · exact hloop colors₁ hclean₁ hgrows₁ fun k hk => honly k hk ▸ hblack₁
          | black => exact hloop colors hclean (.refl colors) fun k hk => honly k hk ▸ hcolor

theorem diCycleDfs_spec (c : DIContainer) (fuel : Nat) : VisitSpec c fuel := by
  induction fuel with
  | zero =>
      intro colors i hi hwhite _ _ hwhites
      have := card_whites_gray hi hwhite
      omega
  | succ fuel ih =>
      intro colors i hi hwhite hclean hgrays hwhites
      have hlt := card_whites_gray hi hwhite
      have hclean₀ : Clean c (Function.update colors i .gray) := by
        intro j hj
        by_cases hji : j = i
        · simp [hji] at hj
        · rw [Function.update_of_ne hji] at hj
          exact hclean j hj
      have hgrays₀ : ∀ g, Function.update colors i .gray g = .gray →
          g = i ∨ TransGen (DependsOn c) g i := by
        intro g hg
        by_cases hgi : g = i
        · exact .inl hgi
        · rw [Function.update_of_ne hgi] at hg
          exact .inr (hgrays g hg)
      obtain ⟨colors', ⟨heq, hcycle⟩ | ⟨heq, hclean', hgrows, hblack⟩⟩ :=
        cycleDeps_spec ih (depsAt c i) (fun _ h => h) hclean₀
          (Function.update_self ..) hgrays₀ (by omega)
      · exact .inl ⟨by rw [diCycleDfs, heq], hcycle⟩
      · have hnone : ¬ReachesCycle (DependsOn c) i := by
          intro hcycle
          obtain ⟨j, ⟨dep, hdep, hj⟩, hcyclej⟩ := hcycle.next
          exact hclean' j (hblack dep hdep j hj) hcyclej
        rw [diCycleDfs, heq]
        dsimp only
        refine .inr ⟨rfl, fun j hj => ?_, ⟨fun j => ?_, fun j hj => ?_⟩, Function.update_self ..⟩
        · by_cases hji : j = i
          · exact hji ▸ hnone
          · rw [Function.update_of_ne hji] at hj
            exact hclean' j hj
        · by_cases hji : j = i
          · simp [hji, hwhite]
          · rw [Function.update_of_ne hji, hgrows.gray_iff, Function.update_of_ne hji]
        · by_cases hji : j = i
          · simp [hji]
          · rw [Function.update_of_ne hji]
            exact hgrows.black j (by rwa [Function.update_of_ne hji])

theorem diHasCycle_iff (c : DIContainer) (name : CStr) :
    diHasCycle c name = 1 ↔ CycleBelow c name := by
  rw [diHasCycle, CycleBelow]
  cases hfind : diFindEntry c name with
  | none => simp
  | some i =>
      have hfuel : (whites c fun _ => .white).card ≤ c.entries.length := by
        refine (Finset.card_filter_le _ _).trans ?_
        rw [Finset.card_range]
      have hspec := diCycleDfs_spec c c.entries.length (fun _ => .white) i (diFindEntry_lt hfind)
        rfl (fun _ hj => absurd hj (by simp)) (fun _ hg => absurd hg (by simp)) hfuel
      dsimp only
      rcases hspec with ⟨hfound, hcycle⟩ | ⟨hfound, hclean, -, hblack⟩
      · simp [hfound, hcycle]
      · simp [hfound, hclean i hblack]

end DiCycles

/-!
# The factory calls of a container

In a container without missing dependencies and cycles every resolution succeeds, a factory is
called when the calls for its dependencies are in the log, and once at most for a singleton:
while a singleton is built, only services below it are resolved.
-/

open Relation
open MiniBackend.Lib.CString MiniBackend.Lib.Digraph MiniBackend.Lib.Runs MiniBackend.Framework.Di
open MiniBackend.Framework.Proofs.DiResolution
open MiniBackend.Framework.Proofs.DiOrder

def instanceAt (c : DIContainer) (i : Nat) : Option Instance := c.entries[i]?.bind (·.inst)

def DepsBuilt (c₀ : DIContainer) (pre : List FactoryCall) (call : FactoryCall) : Prop :=
  List.Forall₂ (fun dep inst => ∀ j, diFindEntry c₀ dep = some j →
    ∃ earlier ∈ pre, earlier.service = j ∧
      (ScopeAt c₀ j .singleton → earlier.result = inst)) (depsAt c₀ call.service) call.deps

/-- The state of a container with the services of `c₀`, in which every factory call was made
by a resolution. -/
structure Sound (c₀ c : DIContainer) : Prop where
  same : SameServices c₀ c
  results : ∀ call ∈ c.calls, call.result ≠ none
  singletons : ∀ i entry, c.entries[i]? = some entry → entry.scope = .singleton →
    (c.calls.filter (·.service = i)).map (·.result) = if entry.initialized then [entry.inst] else []
  requests : ∀ i inst, c.requestInstances i = some inst → ∃ call ∈ c.calls, call.service = i
  built : ∀ pre call post, c.calls = pre ++ call :: post → DepsBuilt c₀ pre call

def Resolved (c₀ : DIContainer) (name : CStr) (inst : Option Instance) (c : DIContainer) : Prop :=
  ∀ i, diFindEntry c₀ name = some i → inst ≠ none ∧
    ∃ call ∈ c.calls, call.service = i ∧ (ScopeAt c₀ i .singleton → call.result = inst)

def NewCalls (p : Nat → Prop) (c c' : DIContainer) : Prop :=
  ∃ more, c'.calls = c.calls ++ more ∧ ∀ call ∈ more, p call.service

theorem NewCalls.refl (p : Nat → Prop) (c : DIContainer) : NewCalls p c c := ⟨[], by simp, by simp⟩

theorem NewCalls.trans {p : Nat → Prop} {c c' c'' : DIContainer} (h : NewCalls p c c')
    (h' : NewCalls p c' c'') : NewCalls p c c'' := by
  obtain ⟨more, heq, hmore⟩ := h
  obtain ⟨more', heq', hmore'⟩ := h'
  refine ⟨more ++ more', by rw [heq', heq, List.append_assoc], fun call hcall => ?_⟩
  rcases List.mem_append.mp hcall with hcall | hcall
  · exact hmore call hcall
  · exact hmore' call hcall

theorem NewCalls.mono {p q : Nat → Prop} (hpq : ∀ i, p i → q i) {c c' : DIContainer}
    (h : NewCalls p c c') : NewCalls q c c' := by
  obtain ⟨more, heq, hmore⟩ := h
  exact ⟨more, heq, fun call hcall => hpq _ (hmore call hcall)⟩

theorem NewCalls.mem {p : Nat → Prop} {c c' : DIContainer} (h : NewCalls p c c')
    {call : FactoryCall} (hcall : call ∈ c.calls) : call ∈ c'.calls := by
  obtain ⟨more, heq, -⟩ := h
  rw [heq]
  exact List.mem_append_left more hcall

theorem Resolved.mono {c₀ c c' : DIContainer} {name : CStr} {inst : Option Instance}
    (h : Resolved c₀ name inst c) {p : Nat → Prop} (hnew : NewCalls p c c') :
    Resolved c₀ name inst c' := by
  intro i hi
  obtain ⟨hne, call, hcall, hservice⟩ := h i hi
  exact ⟨hne, call, hnew.mem hcall, hservice⟩

/-! ## One building -/

section Building

variable {c₀ : DIContainer}

theorem Sound.atDepth {c : DIContainer} (h : Sound c₀ c) (depth : Int) :
    Sound c₀ (atDepth depth c) :=
  ⟨h.same.trans ⟨rfl, rfl⟩, h.results, h.singletons, h.requests, h.built⟩

theorem Sound.cached {c : DIContainer} (h : Sound c₀ c) {name : CStr} {i : Nat}
    (hfind : diFindEntry c name = some i) {inst : Option Instance}
    (hcached : cached c i = some inst) : Resolved c₀ name inst c := by
  intro j hj
  have hfind₀ := (h.same.diFindEntry_eq name).symm.trans hfind
  obtain rfl : j = i := Option.some.inj (hj.symm.trans hfind₀)
  have hlt := diFindEntry_lt hfind
  have hentry := List.getElem?_eq_getElem hlt
  generalize c.entries[j] = entry at hentry
  have hscope : ∀ scope, ScopeAt c₀ j scope ↔ entry.scope = scope := by
    intro scope
    rw [← h.same.scopeAt_iff, ScopeAt, hentry]
    simp
  rw [DiResolution.cached, hentry] at hcached
  dsimp only at hcached
  cases hentryScope : entry.scope with
  | singleton =>
      rw [hentryScope] at hcached
      by_cases hinit : entry.initialized = true
      · simp only [hinit, if_true] at hcached
        obtain rfl := Option.some.inj hcached
        have hcalls := h.singletons j entry hentry hentryScope
        rw [if_pos hinit] at hcalls
        have hmem : entry.inst ∈ (c.calls.filter (·.service = j)).map (·.result) := by
          simp [hcalls]
        obtain ⟨call, hcall, hresult⟩ := List.mem_map.mp hmem
        obtain ⟨hcall, hservice⟩ := List.mem_filter.mp hcall
        exact ⟨hresult ▸ h.results call hcall, call, hcall, by simpa using hservice,
          fun _ => hresult⟩
      · simp [hinit] at hcached
  | transient =>
      rw [hentryScope] at hcached
      exact absurd hcached (by simp)
  | request =>
      rw [hentryScope] at hcached
      by_cases hrequest : c.inRequest = true
      · simp only [hrequest, if_true] at hcached
        obtain ⟨r, hr, rfl⟩ := Option.map_eq_some_iff.mp hcached
        obtain ⟨call, hcall, hservice⟩ := h.requests j r hr
        refine ⟨by simp, call, hcall, hservice, fun hsingle => ?_⟩
        rw [hscope, hentryScope] at hsingle
        exact absurd hsingle (by decide)
      · simp [hrequest] at hcached

/-- A singleton that is not cached has not been built. -/
theorem Sound.no_calls {c : DIContainer} (h : Sound c₀ c) {name : CStr} {i : Nat}
    (hfind : diFindEntry c name = some i) (hcached : DiResolution.cached c i = none)
    (hsingle : ScopeAt c₀ i .singleton) : ∀ call ∈ c.calls, call.service ≠ i := by
  have hlt := diFindEntry_lt hfind
  have hentry := List.getElem?_eq_getElem hlt
  generalize c.entries[i] = entry at hentry
  have hscope : entry.scope = .singleton := by
    rw [← h.same.scopeAt_iff, ScopeAt, hentry] at hsingle
    simpa using hsingle
  have hinit : entry.initialized = false := by
    rw [DiResolution.cached, hentry] at hcached
    simpa [hscope] using hcached
  have hcalls := h.singletons i entry hentry hscope
  rw [hinit, if_neg (by simp), List.map_eq_nil_iff, List.filter_eq_nil_iff] at hcalls
  exact fun call hcall => by simpa using hcalls call hcall

theorem calls_store (c₁ : DIContainer) (i : Nat) (inst : Option Instance) (c : DIContainer) :
    (store c₁ i inst c).calls = c.calls := by
  rw [store]
  split
  · rfl
  · split <;> rfl

theorem concat_eq_split {α : Type*} {l pre post : List α} {last a : α}
    (h : l ++ [last] = pre ++ a :: post) :
    (∃ post', l = pre ++ a :: post') ∨ pre = l ∧ a = last := by
  rcases List.eq_nil_or_concat post with rfl | ⟨post', b, rfl⟩
  · obtain ⟨hpre, hlast⟩ := List.append_inj' h rfl
    exact .inr ⟨hpre.symm, (List.cons.inj hlast).1.symm⟩
  · rw [List.concat_eq_append, ← List.cons_append, ← List.append_assoc] at h
    exact .inl ⟨post', (List.append_inj' h rfl).1⟩

/-- The service at an index is built from instances that have been found for it, after no call
for it if it is a singleton. -/
theorem Sound.build {c c₁ : DIContainer} (h : Sound c₀ c) (hsame : SameServices c₀ c₁) {i : Nat}
    {insts : List (Option Instance)} {inst : Option Instance} (hinst : inst ≠ none)
    (hdeps : List.Forall₂ (fun dep inst => Resolved c₀ dep inst c) (depsAt c₀ i) insts)
    (honce : ScopeAt c₀ i .singleton → ∀ call ∈ c.calls, call.service ≠ i) :
    Sound c₀ (store c₁ i inst (logCall ⟨i, insts, inst⟩ c)) := by
  have hcalls : (store c₁ i inst (logCall ⟨i, insts, inst⟩ c)).calls =
      c.calls ++ [⟨i, insts, inst⟩] := calls_store c₁ i inst _
  have hsame' : SameServices c₀ (logCall ⟨i, insts, inst⟩ c) := h.same.trans ⟨rfl, rfl⟩
  refine ⟨hsame'.trans (sameServices_store c₁ i inst _), ?_, ?_, ?_, ?_⟩
  · rw [hcalls]
    intro call hcall
    rcases List.mem_append.mp hcall with hcall | hcall
    · exact h.results call hcall
    · rw [List.mem_singleton.mp hcall]
      exact hinst
  · rw [hcalls]
    intro j entry hentry hsingle
    rw [List.filter_append, List.map_append]
    by_cases hji : j = i
    · subst hji
      have hstore := hsame'.trans (sameServices_store c₁ j inst _)
      have hscope : ScopeAt c₀ j .singleton := by
        rw [← hstore.scopeAt_iff, ScopeAt, hentry, Option.map_some, hsingle]
      have hnone : c.calls.filter (·.service = j) = [] :=
        List.filter_eq_nil_iff.mpr fun call hcall => by simpa using honce hscope call hcall
      rw [store, if_pos ((hsame.scopeAt_iff j _).mpr hscope), setInstance,
        List.getElem?_modify_eq] at hentry
      obtain ⟨entry', -, rfl⟩ := Option.map_eq_some_iff.mp hentry
      rw [hnone, if_pos (Option.isSome_iff_ne_none.mpr hinst)]
      simp
    · have hentry' : c.entries[j]? = some entry := by
        rw [store] at hentry
        split at hentry
        · rwa [setInstance, List.getElem?_modify_ne _ _ (Ne.symm hji)] at hentry
        · split at hentry <;> exact hentry
      rw [h.singletons j entry hentry' hsingle]
      simp [Ne.symm hji]
  · rw [hcalls]
    intro j r hr
    by_cases hji : j = i
    · exact ⟨⟨i, insts, inst⟩, by simp, hji.symm⟩
    · have hr' : c.requestInstances j = some r := by
        rw [store] at hr
        split at hr
        · exact hr
        · split at hr
          · simpa [Function.update_of_ne hji, logCall] using hr
          · exact hr
      obtain ⟨call, hcall, hservice⟩ := h.requests j r hr'
      exact ⟨call, List.mem_append_left _ hcall, hservice⟩
  · rw [hcalls]
    intro pre call post hsplit
    rcases concat_eq_split hsplit with ⟨post', hold⟩ | ⟨rfl, rfl⟩
    · exact h.built pre call post' hold
    · exact hdeps.imp fun dep r hr j hj => (hr j hj).2

/-- In a container without missing dependencies and cycles a resolution succeeds, and it calls
factories only for the service and what it depends on. -/
theorem diResolve_exact (hknown : AllKnown c₀) (hacyclic : Acyclic (DependsOn c₀))
    {factories : Factories} (hfactories : ∀ calls i deps, factories calls i deps ≠ none)
    {fuel : Nat} {c c' : DIContainer} {name : CStr} {inst : Option Instance} (h : Sound c₀ c)
    (hr : diResolve factories fuel c name = some (inst, c')) :
    Sound c₀ c' ∧ Resolved c₀ name inst c' ∧ NewCalls (fun j => ∃ i,
      diFindEntry c₀ name = some i ∧ ReflTransGen (DependsOn c₀) i j) c c' := by
  induction fuel generalizing c c' name inst with
  | zero => exact absurd hr (by simp [diResolve])
  | succ fuel ih =>
      rcases diResolve_cases hr with ⟨hnone, -, rfl⟩ | ⟨i, hfind, hcase⟩
      · rw [h.same.diFindEntry_eq] at hnone
        exact ⟨h, fun i hi => absurd (hi.symm.trans hnone) (by simp), .refl _ c'⟩
      rcases hcase with ⟨hcached, rfl⟩ | ⟨hcached, c₁, hcase⟩
      · exact ⟨h, h.cached hfind hcached, .refl _ c'⟩
      have hfind₀ : diFindEntry c₀ name = some i := (h.same.diFindEntry_eq name).symm.trans hfind
      -- the dependencies are resolved by calls for services strictly below `i`
      have hloop : ∀ {res}, buildDeps (diResolve factories fuel) (depsAt c i) []
          (DiResolution.atDepth 1 c) = some (res, c₁) → _ := fun hdeps =>
        buildDeps_rule (Q := Resolved c₀)
          (I := fun c' => Sound c₀ c' ∧ NewCalls (TransGen (DependsOn c₀) i) c c')
          (fun c₂ dep inst c₃ hdep hI hr => by
            obtain ⟨hsound, hresolved, hnew⟩ := ih hI.1 hr
            have hbelow : NewCalls (TransGen (DependsOn c₀) i) c₂ c₃ := by
              refine hnew.mono fun j hj => ?_
              obtain ⟨k, hk, hkj⟩ := hj
              exact .head' ⟨dep, h.same.depsAt_eq i ▸ hdep, hk⟩ hkj
            exact ⟨⟨hsound, hI.2.trans hbelow⟩, hresolved, fun _ _ hd => hd.mono hbelow⟩)
          ⟨h.atDepth 1, [], by simp [DiResolution.atDepth], by simp⟩ hdeps
      rcases hcase with ⟨hdeps, -, -⟩ | ⟨insts, hdeps, rfl, rfl⟩
      · obtain ⟨-, ⟨insts, heq, -⟩ | ⟨-, l₁, dep, l₂, hsplit, -, hnull, -⟩⟩ := hloop hdeps
        · exact absurd heq (by simp)
        · rw [h.same.depsAt_eq] at hsplit
          obtain ⟨j, hj⟩ := hknown i dep (by simp [hsplit])
          exact absurd rfl (hnull j hj).1
      · obtain ⟨⟨hsound, hnew⟩, ⟨insts', heq, hall⟩ | ⟨heq, -⟩⟩ := hloop hdeps
        · obtain rfl := Option.some.inj heq
          have hinst := hfactories c₁.calls i insts
          have hbuilt : List.Forall₂ (fun dep inst => Resolved c₀ dep inst c₁) (depsAt c₀ i)
              insts := by
            rw [← h.same.depsAt_eq]
            exact hall.imp fun dep r hd => hd.1
          have honce : ScopeAt c₀ i .singleton → ∀ call ∈ c₁.calls, call.service ≠ i := by
            intro hsingle call hcall
            obtain ⟨more, heq, hmore⟩ := hnew
            rw [heq] at hcall
            rcases List.mem_append.mp hcall with hcall | hcall
            · exact h.no_calls hfind hcached hsingle call hcall
            · intro hservice
              exact hacyclic i (hservice ▸ hmore call hcall)
          have hsound' := (hsound.atDepth (c₁.resolveDepth - 1)).build h.same hinst hbuilt honce
          have hcalls := calls_store c i (factories c₁.calls i insts)
            (logCall ⟨i, insts, factories c₁.calls i insts⟩
              (DiResolution.atDepth (c₁.resolveDepth - 1) c₁))
          refine ⟨hsound', fun j hj => ?_, ?_⟩
          · obtain rfl := Option.some.inj (hj.symm.trans hfind₀)
            refine ⟨hinst, ⟨j, insts, factories c₁.calls j insts⟩, ?_, rfl, fun _ => rfl⟩
            rw [hcalls]
            exact List.mem_append_right c₁.calls (by simp)
          · have hbelow := hnew.mono (q := fun j => ∃ k, diFindEntry c₀ name = some k ∧
              ReflTransGen (DependsOn c₀) k j) fun j hj => ⟨i, hfind₀, hj.to_reflTransGen⟩
            refine hbelow.trans ⟨[⟨i, insts, factories c₁.calls i insts⟩], hcalls, ?_⟩
            intro call hcall
            rw [List.mem_singleton.mp hcall]
            exact ⟨i, hfind₀, .refl⟩
        · exact absurd heq (by simp)

end Building

/-! ## The calls of a client -/

def Called (c : DIContainer) (i : Nat) : Prop := ∃ call ∈ c.calls, call.service = i

theorem Called.mono {c c' : DIContainer} {i : Nat} (h : Called c i) {p : Nat → Prop}
    (hnew : NewCalls p c c') : Called c' i := by
  obtain ⟨call, hcall, hservice⟩ := h
  exact ⟨call, hnew.mem hcall, hservice⟩

theorem Resolved.called {c₀ c : DIContainer} {name : CStr} {inst : Option Instance}
    (h : Resolved c₀ name inst c) {i : Nat} (hi : diFindEntry c₀ name = some i) : Called c i := by
  obtain ⟨-, call, hcall, hservice, -⟩ := h i hi
  exact ⟨call, hcall, hservice⟩

theorem Sound.called_below {c₀ c : DIContainer} (h : Sound c₀ c) {i j : Nat} (hi : Called c i)
    (hij : ReflTransGen (DependsOn c₀) i j) : Called c j := by
  induction hij with
  | refl => exact hi
  | tail _ hjk ih =>
      obtain ⟨call, hcall, rfl⟩ := ih
      obtain ⟨dep, hdep, hk⟩ := hjk
      obtain ⟨pre, post, hsplit⟩ := List.append_of_mem hcall
      have hbuilt := h.built pre call post hsplit
      obtain ⟨n, hn, rfl⟩ := List.mem_iff_getElem.mp hdep
      obtain ⟨earlier, hearlier, hservice, -⟩ :=
        hbuilt.get hn (hbuilt.length_eq ▸ hn) _ hk
      exact ⟨earlier, by simp [hsplit, hearlier], hservice⟩

def taggedNames (c : DIContainer) (tag : CStr) : List CStr :=
  (c.entries.filter (·.tags.contains tag)).map DIServiceEntry.name

theorem taggedNames_sameServices {c c' : DIContainer} (h : SameServices c c') (tag : CStr) :
    taggedNames c' tag = taggedNames c tag := by
  have hplan : ∀ l : List DIServiceEntry, (l.filter (·.tags.contains tag)).map DIServiceEntry.name =
      ((l.map planOf).filter (·.tags.contains tag)).map DIServiceEntry.name := by
    intro l
    rw [List.filter_map, List.map_map]
    rfl
  rw [taggedNames, taggedNames, hplan, h.entries_eq, ← hplan]

def Target (c : DIContainer) : Op → Nat → Prop
  | .resolveAll, i => ScopeAt c i .singleton
  | .resolve name, i => diFindEntry c name = some i
  | .resolveTagged tag maxResults, i =>
      ∃ name ∈ (taggedNames c tag).take maxResults.toNat, diFindEntry c name = some i

def Leaves (c₀ c : DIContainer) (target : Nat → Prop) (c' : DIContainer) : Prop :=
  Sound c₀ c' ∧ NewCalls (fun _ => True) c c' ∧ ∀ i, target i → Called c' i

section Calls

variable {c₀ : DIContainer} {factories : Factories} {fuel : Nat}

def DeepEnough (c₀ : DIContainer) (factories : Factories) (fuel : Nat) : Prop :=
  ∀ c name, Sound c₀ c → ∃ r, diResolve factories fuel c name = some r

theorem deepEnough_eventually (hacyclic : Acyclic (DependsOn c₀)) (factories : Factories) :
    ∀ᶠ fuel in Filter.atTop, DeepEnough c₀ factories fuel := by
  have hpos := Filter.eventually_ge_atTop 1
  refine (hpos.and (resolves_acyclic factories c₀)).mono fun fuel h c name hsound => ?_
  obtain ⟨fuel, rfl⟩ : ∃ m, fuel = m + 1 := ⟨fuel - 1, by omega⟩
  cases hfind : diFindEntry c name with
  | none =>
      rw [diResolve_succ, hfind]
      exact ⟨_, rfl⟩
  | some i =>
      have hi : i < c₀.entries.length := hsound.same.length_eq ▸ diFindEntry_lt hfind
      have hacc := (acc_swap_iff (finite_services c₀) (fun _ _ h => h.lt) i).mpr
        (hacyclic.not_reachesCycle i)
      exact h.2 i (Finset.mem_range.mpr hi) hacc c name hsound.same hfind

variable (hknown : AllKnown c₀) (hacyclic : Acyclic (DependsOn c₀))
variable (hfactories : ∀ calls i deps, factories calls i deps ≠ none)
variable (hdeep : DeepEnough c₀ factories fuel)

include hknown hacyclic hfactories hdeep

theorem diResolve_leaves {c : DIContainer} (h : Sound c₀ c) (name : CStr) :
    ∃ inst c', diResolve factories fuel c name = some (inst, c') ∧
      Leaves c₀ c (fun i => diFindEntry c₀ name = some i) c' := by
  obtain ⟨⟨inst, c'⟩, hr⟩ := hdeep c name h
  obtain ⟨hsound, hresolved, hnew⟩ := diResolve_exact hknown hacyclic hfactories h hr
  exact ⟨inst, c', hr, hsound, hnew.mono fun _ _ => trivial, fun i hi => hresolved.called hi⟩

theorem taggedLoop_leaves (tag : CStr) (maxResults : Int) (l : List DIServiceEntry)
    (results : List (Option Instance)) {c : DIContainer} (h : Sound c₀ c) :
    ∃ results' c', taggedLoop factories fuel tag maxResults l results c = some (results', c') ∧
      Leaves c₀ c (fun i => ∃ name ∈ ((l.filter (·.tags.contains tag)).map
        DIServiceEntry.name).take (maxResults - results.length).toNat,
          diFindEntry c₀ name = some i) c' := by
  induction l generalizing results c with
  | nil => exact ⟨results, c, rfl, h, .refl _ c, by simp⟩
  | cons entry rest ih =>
      rw [taggedLoop]
      by_cases hroom : (results.length : Int) < maxResults
      · rw [if_pos hroom]
        by_cases htag : entry.tags.contains tag = true
        · obtain ⟨inst, c₁, hr, hsound₁, hnew₁, hcalled₁⟩ :=
            diResolve_leaves hknown hacyclic hfactories hdeep h entry.name
          obtain ⟨results', c', hloop, hsound, hnew, hcalled⟩ :=
            ih (results ++ [inst]) hsound₁
          refine ⟨results', c', ?_, hsound, hnew₁.trans hnew, ?_⟩
          · rw [if_pos htag, hr]
            exact hloop
          · rintro i ⟨name, hname, hi⟩
            have hsucc : (maxResults - results.length).toNat =
                (maxResults - (results ++ [inst]).length).toNat + 1 := by
              simp only [List.length_append, List.length_singleton]
              omega
            rw [List.filter_cons, if_pos htag, List.map_cons, hsucc, List.take_succ_cons] at hname
            rcases List.mem_cons.mp hname with rfl | hname
            · exact (hcalled₁ i hi).mono hnew
            · exact hcalled i ⟨name, hname, hi⟩
        · rw [if_neg htag, List.filter_cons, if_neg htag]
          exact ih results h
      · refine ⟨results, c, if_neg hroom, h, .refl _ c, ?_⟩
        rintro i ⟨name, hname, -⟩
        have hzero : (maxResults - results.length).toNat = 0 := by omega
        rw [hzero, List.take_zero] at hname
        exact absurd hname List.not_mem_nil

theorem diResolveAll_leaves (hnames : DistinctNames c₀) {c : DIContainer} (h : Sound c₀ c) :
    ∃ code c', diResolveAll factories fuel c = some (code, c') ∧
      Leaves c₀ c (fun i => ScopeAt c₀ i .singleton) c' := by
  obtain ⟨code, c', hr, ⟨hsound, hnew⟩, hcode, hcalled⟩ :=
    diResolveAll_spec (Q := fun i c => Called c i)
      (I := fun c' => Sound c₀ c' ∧ NewCalls (fun _ => True) c c') hnames
      (fun c hI => hI.1.same)
      (fun c₁ name inst c₂ hI hr => by
        obtain ⟨hsound, hresolved, hnew⟩ := diResolve_exact hknown hacyclic hfactories hI.1 hr
        have hnew' : NewCalls (fun _ => True) c₁ c₂ := hnew.mono fun _ _ => trivial
        exact ⟨⟨hsound, hI.2.trans hnew'⟩, fun i hi => hresolved.called hi,
          fun i hi => hi.mono hnew'⟩)
      (fun i _ _ c₁ name hI _ => hdeep c₁ name hI.1) (c := c) ⟨h, .refl _ c⟩
  exact ⟨code, c', hr, hsound, hnew, hcalled (hcode.mpr ⟨hknown, hacyclic⟩)⟩

theorem step_leaves (hnames : DistinctNames c₀) {c : DIContainer} (h : Sound c₀ c) (op : Op) :
    ∃ c', step factories fuel c op = some c' ∧ Leaves c₀ c (Target c₀ op) c' := by
  cases op with
  | resolveAll =>
      obtain ⟨code, c', hr, hleaves⟩ :=
        diResolveAll_leaves hknown hacyclic hfactories hdeep hnames h
      exact ⟨c', by rw [step, hr]; rfl, hleaves⟩
  | resolve name =>
      obtain ⟨inst, c', hr, hleaves⟩ := diResolve_leaves hknown hacyclic hfactories hdeep h name
      exact ⟨c', by rw [step, hr]; rfl, hleaves⟩
  | resolveTagged tag maxResults =>
      by_cases hmax : maxResults ≤ 0
      · refine ⟨c, by rw [step, diResolveTagged, if_pos hmax]; rfl, h, .refl _ c, ?_⟩
        rintro i ⟨name, hname, -⟩
        rw [Int.toNat_eq_zero.mpr hmax, List.take_zero] at hname
        exact absurd hname List.not_mem_nil
      · obtain ⟨results, c', hr, hsound, hnew, hcalled⟩ :=
          taggedLoop_leaves hknown hacyclic hfactories hdeep tag maxResults c.entries [] h
        refine ⟨c', by rw [step, diResolveTagged, if_neg hmax, hr]; rfl, hsound, hnew, ?_⟩
        rintro i ⟨name, hname, hi⟩
        rw [← taggedNames_sameServices h.same, taggedNames] at hname
        exact hcalled i ⟨name, by simpa using hname, hi⟩

theorem run_leaves (hnames : DistinctNames c₀) (ops : List Op) {c : DIContainer}
    (h : Sound c₀ c) : ∃ c', runOption (step factories fuel) c ops = some c' ∧
      Leaves c₀ c (fun i => ∃ op ∈ ops, Target c₀ op i) c' := by
  induction ops generalizing c with
  | nil => exact ⟨c, rfl, h, .refl _ c, by simp⟩
  | cons op ops ih =>
      obtain ⟨c₁, hstep, hsound₁, hnew₁, hcalled₁⟩ :=
        step_leaves hknown hacyclic hfactories hdeep hnames h op
      obtain ⟨c', hrun, hsound, hnew, hcalled⟩ := ih hsound₁
      refine ⟨c', by rw [runOption, hstep, Option.bind_some, hrun], hsound, hnew₁.trans hnew, ?_⟩
      rintro i ⟨op', hop', hi⟩
      rcases List.mem_cons.mp hop' with rfl | hop'
      · exact (hcalled₁ i hi).mono hnew
      · exact hcalled i ⟨op', hop', hi⟩

end Calls

/-! ## Bulk resolution is exact -/

/-- Nothing has been resolved yet. -/
structure Untouched (c : DIContainer) : Prop where
  uninitialized : ∀ entry ∈ c.entries, entry.initialized = false
  noRequests : ∀ i, c.requestInstances i = none
  noCalls : c.calls = []

theorem Untouched.sound {c : DIContainer} (h : Untouched c) : Sound c c where
  same := .refl c
  results call hcall := absurd (h.noCalls ▸ hcall) List.not_mem_nil
  singletons i entry hentry _ := by
    rw [h.uninitialized entry (List.mem_of_getElem? hentry), h.noCalls]
    rfl
  requests i inst hinst := absurd ((h.noRequests i).symm.trans hinst) (by simp)
  built pre call post hsplit := absurd (h.noCalls.symm.trans hsplit) (by simp)

/-- A call of the run asks for the service, or for one above it. -/
def ResolvedBy (c : DIContainer) (ops : List Op) (i : Nat) : Prop :=
  ∃ op ∈ ops, ∃ j, Target c op j ∧ ReflTransGen (DependsOn c) j i

/-- The factory of the service was called once, after those of the singletons that it depends
on, and it was given their instances. -/
def InvokedOnce (c₀ c : DIContainer) (i : Nat) : Prop :=
  ∃ pre call post, c.calls = pre ++ call :: post ∧ call.service = i ∧
    (∀ other ∈ pre ++ post, other.service ≠ i) ∧ instanceAt c i = call.result ∧
    List.Forall₂ (fun dep inst => ∀ j, diFindEntry c₀ dep = some j → ScopeAt c₀ j .singleton →
      inst ≠ none ∧ instanceAt c j = inst ∧ ∃ earlier ∈ pre, earlier.service = j)
      (depsAt c₀ i) call.deps

theorem Sound.filter_eq {c₀ c : DIContainer} (h : Sound c₀ c) {call : FactoryCall}
    (hcall : call ∈ c.calls) (hsingle : ScopeAt c₀ call.service .singleton) :
    c.calls.filter (·.service = call.service) = [call] ∧
      instanceAt c call.service = call.result := by
  have hscope := (h.same.scopeAt_iff _ _).mpr hsingle
  obtain ⟨entry, hentry, hentryScope⟩ := Option.map_eq_some_iff.mp hscope
  have hcalls := h.singletons call.service entry hentry hentryScope
  have hmem : call ∈ c.calls.filter (·.service = call.service) := by simp [hcall]
  have hinit : entry.initialized = true := by
    by_contra hinit
    rw [if_neg hinit, List.map_eq_nil_iff] at hcalls
    exact absurd (hcalls ▸ hmem) List.not_mem_nil
  rw [if_pos hinit] at hcalls
  obtain ⟨only, honly, hresult⟩ := List.map_eq_singleton_iff.mp hcalls
  rw [honly] at hmem ⊢
  obtain rfl := List.mem_singleton.mp hmem
  exact ⟨rfl, by rw [instanceAt, hentry, Option.bind_some, hresult]⟩

theorem Sound.invokedOnce {c₀ c : DIContainer} (h : Sound c₀ c) {i : Nat}
    (hsingle : ScopeAt c₀ i .singleton) (hcalled : Called c i) : InvokedOnce c₀ c i := by
  obtain ⟨call, hcall, rfl⟩ := hcalled
  obtain ⟨honly, hinst⟩ := h.filter_eq hcall hsingle
  obtain ⟨pre, post, hsplit⟩ := List.append_of_mem hcall
  refine ⟨pre, call, post, hsplit, rfl, fun other hother hservice => ?_, hinst, ?_⟩
  · have hlen := congrArg List.length honly
    rw [hsplit, List.filter_append, List.filter_cons, if_pos (by simp), List.length_append,
      List.length_cons, List.length_singleton] at hlen
    have hin : other ∈ pre.filter (·.service = call.service) ++
        post.filter (·.service = call.service) := by
      rw [← List.filter_append]
      exact List.mem_filter.mpr ⟨hother, by simpa using hservice⟩
    have hpos := List.length_pos_of_mem hin
    rw [List.length_append] at hpos
    omega
  · refine (h.built pre call post hsplit).imp fun dep inst hdep j hj hsingle' => ?_
    obtain ⟨earlier, hearlier, rfl, hresult⟩ := hdep j hj
    have hmem : earlier ∈ c.calls := by simp [hsplit, hearlier]
    obtain rfl := hresult hsingle'
    exact ⟨h.results earlier hmem, (h.filter_eq hmem hsingle').2, earlier, hearlier, rfl⟩

/-- The cycle check, the bulk resolution and the factory calls agree about the services. -/
theorem bulk_resolution_exact {c : DIContainer} (hnames : DistinctNames c) {factories : Factories}
    (hfactories : ∀ calls i deps, factories calls i deps ≠ none) :
    (∀ name, diHasCycle c name = 1 ↔ CycleBelow c name) ∧
      (∃ depth, ∀ fuel ≥ depth, ∃ code c', diResolveAll factories fuel c = some (code, c') ∧
        (code = 0 ↔ AllKnown c ∧ Acyclic (DependsOn c))) ∧
      (Untouched c → AllKnown c → Acyclic (DependsOn c) →
        ∃ depth, ∀ fuel ≥ depth, ∀ ops, ∃ c', runOption (step factories fuel) c ops = some c' ∧
          ∀ i, ScopeAt c i .singleton → ResolvedBy c ops i → InvokedOnce c c' i) := by
  refine ⟨diHasCycle_iff c, ?_, fun huntouched hknown hacyclic => ?_⟩
  · obtain ⟨depth, hdepth⟩ := Filter.eventually_atTop.mp (resolves_acyclic factories c)
    refine ⟨depth, fun fuel hfuel => ?_⟩
    obtain ⟨code, c', hr, -, hcode, -⟩ :=
      diResolveAll_spec (I := SameServices c)
        (Q := fun _ _ => True) hnames (fun _ hsame => hsame)
        (fun _ _ _ _ hsame hr => ⟨hsame.trans (diResolve_sameServices hr), fun _ _ => trivial,
          fun _ _ => trivial⟩) (hdepth fuel hfuel) (.refl c)
    exact ⟨code, c', hr, hcode⟩
  · obtain ⟨depth, hdepth⟩ :=
      Filter.eventually_atTop.mp (deepEnough_eventually hacyclic factories)
    refine ⟨depth, fun fuel hfuel ops => ?_⟩
    obtain ⟨c', hrun, hsound, -, hcalled⟩ :=
      run_leaves hknown hacyclic hfactories (hdepth fuel hfuel) hnames ops huntouched.sound
    refine ⟨c', hrun, fun i hsingle hresolved => ?_⟩
    obtain ⟨op, hop, j, hj, hji⟩ := hresolved
    exact hsound.invokedOnce hsingle (hsound.called_below (hcalled j ⟨op, hop, hj⟩) hji)

/-- A transient service over two singletons, one of which needs the other. -/
def appServices : DIContainer :=
  let c := (diRegister diInit (lit "config") (lit "Config") .singleton []).2
  let c := (diRegister c (lit "db") (lit "Db") .singleton [some (lit "config")]).2
  (diRegister c (lit "app") (lit "App") .transient
    [some (lit "db"), some (lit "config"), some (lit "db")]).2

theorem appServices_deps (i : Nat) :
    ∀ dep ∈ depsAt appServices i, ∃ j < i, diFindEntry appServices dep = some j := by
  by_cases hi : i < 3
  · have hall : ∀ i < 3, ∀ dep ∈ depsAt appServices i,
        ∃ j < i, diFindEntry appServices dep = some j := by decide
    exact hall i hi
  · intro dep hdep
    have hlen : appServices.entries.length = 3 := by decide
    rw [depsAt_of_le (by omega)] at hdep
    exact absurd hdep List.not_mem_nil

theorem bulk_resolution_exact_app :
    DistinctNames appServices ∧ diHasCycle appServices (lit "app") ≠ 1 ∧
      ∃ depth, ∀ fuel ≥ depth, ∃ c',
        runOption (step (fun calls _ _ => some calls.length) fuel) appServices
          [.resolve (lit "app"), .resolveAll] = some c' ∧
        InvokedOnce appServices c' 0 ∧ InvokedOnce appServices c' 1 := by
  have hnames : DistinctNames appServices := by
    rw [DistinctNames]
    decide
  have hfactories : ∀ calls i deps,
      (fun calls _ _ => some calls.length : Factories) calls i deps ≠ none := by simp
  obtain ⟨hcycle, -, hrun⟩ := bulk_resolution_exact hnames hfactories
  have huntouched : Untouched appServices := by
    refine ⟨?_, fun _ => rfl, rfl⟩
    decide
  have hknown : AllKnown appServices := by
    intro i dep hdep
    obtain ⟨j, -, hj⟩ := appServices_deps i dep hdep
    exact ⟨j, hj⟩
  have hacyclic : Acyclic (DependsOn appServices) := by
    have hdown : ∀ i j : Nat, TransGen (fun i j => j < i) i j → j < i := by
      intro i j hij
      induction hij with
      | single hij => exact hij
      | tail _ hjk hij => exact hjk.trans hij
    have hnat : Acyclic fun i j : Nat => j < i := fun i hi => Nat.lt_irrefl i (hdown i i hi)
    refine hnat.mono fun i j hij => ?_
    obtain ⟨dep, hdep, hj⟩ := hij
    obtain ⟨k, hki, hk⟩ := appServices_deps i dep hdep
    exact Option.some.inj (hk.symm.trans hj) ▸ hki
  refine ⟨hnames, fun h => ?_, ?_⟩
  · obtain ⟨i, -, hi⟩ := (hcycle _).mp h
    exact hacyclic.not_reachesCycle i hi
  · obtain ⟨depth, hdepth⟩ := hrun huntouched hknown hacyclic
    refine ⟨depth, fun fuel hfuel => ?_⟩
    obtain ⟨c', hc', honce⟩ := hdepth fuel hfuel [.resolve (lit "app"), .resolveAll]
    exact ⟨c', hc', honce 0 rfl ⟨.resolveAll, by simp, 0, rfl, .refl⟩,
      honce 1 rfl ⟨.resolveAll, by simp, 1, rfl, .refl⟩⟩

end MiniBackend.Framework.Proofs.DiBulk
