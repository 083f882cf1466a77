import Mathlib.Order.Filter.AtTopBot.Basic
import Mathlib.Order.Filter.Finite
import MiniBackend.Lib.Digraph
import MiniBackend.Framework.DiContainer

/-!
# One resolution

What `di_resolve` does in terms of its own recursive calls.  Every resolution sets
`resolve_depth` to 0 before it builds, so the depth limit is never reached: whether a
resolution ends is a matter of the services alone.
-/

namespace MiniBackend.Framework.Proofs.DiResolution

open MiniBackend.Lib.CString MiniBackend.Lib.Digraph MiniBackend.Framework.Di

/-! ## The services behind a container -/

def planOf (entry : DIServiceEntry) : DIServiceEntry :=
  { entry with inst := none, initialized := false }

/-- The containers hold the same services. -/
structure SameServices (c c' : DIContainer) : Prop where
  entries_eq : c'.entries.map planOf = c.entries.map planOf
  inRequest_eq : c'.inRequest = c.inRequest

theorem SameServices.refl (c : DIContainer) : SameServices c c := ⟨rfl, rfl⟩

theorem SameServices.trans {c c' c'' : DIContainer} (h : SameServices c c')
    (h' : SameServices c' c'') : SameServices c c'' :=
  ⟨h'.entries_eq.trans h.entries_eq, h'.inRequest_eq.trans h.inRequest_eq⟩

theorem SameServices.length_eq {c c' : DIContainer} (h : SameServices c c') :
    c'.entries.length = c.entries.length := by
  simpa using congrArg List.length h.entries_eq

theorem SameServices.getElem?_eq {c c' : DIContainer} (h : SameServices c c') (i : Nat) :
    c'.entries[i]?.map planOf = c.entries[i]?.map planOf := by
  rw [← List.getElem?_map, h.entries_eq, List.getElem?_map]

theorem SameServices.diFindEntry_eq {c c' : DIContainer} (h : SameServices c c') (name : CStr) :
    diFindEntry c' name = diFindEntry c name := by
  have hplan : ∀ l : List DIServiceEntry,
      (l.map planOf).findIdx? (fun entry => entry.name == name) =
        l.findIdx? fun entry => entry.name == name := by
    intro l
    rw [List.findIdx?_map]
    rfl
  rw [diFindEntry, diFindEntry, ← hplan, h.entries_eq, hplan]

theorem depsAt_eq_plan (c : DIContainer) (i : Nat) :
    depsAt c i = ((c.entries[i]?.map planOf).map DIServiceEntry.dependencies).getD [] := by
  cases h : c.entries[i]? with
  | none => simp [depsAt, h]
  | some entry => simp [depsAt, h, planOf]

theorem SameServices.depsAt_eq {c c' : DIContainer} (h : SameServices c c') (i : Nat) :
    depsAt c' i = depsAt c i := by
  rw [depsAt_eq_plan, depsAt_eq_plan, h.getElem?_eq]

def ScopeAt (c : DIContainer) (i : Nat) (scope : DIScope) : Prop :=
  (c.entries[i]?.map DIServiceEntry.scope) = some scope

instance (c : DIContainer) (i : Nat) (scope : DIScope) : Decidable (ScopeAt c i scope) :=
  inferInstanceAs (Decidable (_ = _))

theorem SameServices.scopeAt_iff {c c' : DIContainer} (h : SameServices c c') (i : Nat)
    (scope : DIScope) : ScopeAt c' i scope ↔ ScopeAt c i scope := by
  have hplan : ∀ c : DIContainer, c.entries[i]?.map DIServiceEntry.scope =
      (c.entries[i]?.map planOf).map DIServiceEntry.scope := by
    intro c
    cases c.entries[i]? <;> rfl
  rw [ScopeAt, ScopeAt, hplan c', h.getElem?_eq, ← hplan c]

theorem diFindEntry_lt {c : DIContainer} {name : CStr} {i : Nat}
    (h : diFindEntry c name = some i) : i < c.entries.length :=
  (List.findIdx?_eq_some_iff_getElem.mp h).1

theorem depsAt_of_le {c : DIContainer} {i : Nat} (h : c.entries.length ≤ i) : depsAt c i = [] := by
  simp [depsAt, List.getElem?_eq_none h]

def DependsOn (c : DIContainer) (i j : Nat) : Prop :=
  ∃ dep ∈ depsAt c i, diFindEntry c dep = some j

theorem DependsOn.lt {c : DIContainer} {i j : Nat} (h : DependsOn c i j) :
    j < c.entries.length := by
  obtain ⟨dep, -, hdep⟩ := h
  exact diFindEntry_lt hdep

theorem finite_services (c : DIContainer) : {i | i < c.entries.length}.Finite :=
  Set.finite_Iio c.entries.length

def CycleBelow (c : DIContainer) (name : CStr) : Prop :=
  ∃ i, diFindEntry c name = some i ∧ ReachesCycle (DependsOn c) i

/-! ## One call -/

/-- What a resolution returns without a call of the factory. -/
def cached (c : DIContainer) (i : Nat) : Option (Option Instance) :=
  match c.entries[i]? with
  | none => some none
  | some entry =>
      match entry.scope with
      | .singleton => if entry.initialized then some entry.inst else none
      | .transient => none
      | .request => if c.inRequest then (c.requestInstances i).map some else none

def atDepth (depth : Int) (c : DIContainer) : DIContainer := { c with resolveDepth := depth }

def logCall (call : FactoryCall) (c : DIContainer) : DIContainer :=
  { c with calls := c.calls ++ [call] }

/-- What a resolution of the service that `c₀` has at the index keeps of what was built. -/
def store (c₀ : DIContainer) (i : Nat) (inst : Option Instance) (c : DIContainer) : DIContainer :=
  if ScopeAt c₀ i .singleton then setInstance c i inst
  else if ScopeAt c₀ i .request ∧ c₀.inRequest = true then
    { c with requestInstances := Function.update c.requestInstances i inst }
  else c

theorem diResolve_succ (factories : Factories) (fuel : Nat) (c : DIContainer) (name : CStr) :
    diResolve factories (fuel + 1) c name =
      match diFindEntry c name with
      | none => some (none, c)
      | some i =>
          match cached c i with
          | some inst => some (inst, c)
          | none => (diBuild factories (diResolve factories fuel) (atDepth 0 c) i).map fun r =>
              (r.1, store c i r.1 r.2) := by
  rw [diResolve]
  cases hfind : diFindEntry c name with
  | none => rfl
  | some i =>
      dsimp only
      cases hentry : c.entries[i]? with
      | none => simp [cached, hentry]
      | some entry =>
          cases hscope : entry.scope with
          | singleton =>
              cases hinit : entry.initialized with
              | true => simp [cached, hentry, hscope, hinit]
              | false =>
                  simp only [cached, hentry, hscope, hinit, store, ScopeAt, Option.map_some]
                  rfl
          | transient =>
              simp [cached, hentry, hscope, store, ScopeAt, atDepth]
          | request =>
              cases hin : c.inRequest with
              | true =>
                  cases hinst : c.requestInstances i with
                  | none =>
                      simp [cached, hentry, hscope, hin, hinst, store, ScopeAt, atDepth]
                  | some inst => simp [cached, hentry, hscope, hin, hinst]
              | false => simp [cached, hentry, hscope, hin, store, ScopeAt, atDepth]

theorem diBuild_cases {factories : Factories}
    {resolve : DIContainer → CStr → Option (Option Instance × DIContainer)} {c c' : DIContainer}
    {i : Nat} {inst : Option Instance}
    (h : diBuild factories resolve (atDepth 0 c) i = some (inst, c')) :
    ∃ c₁, (buildDeps resolve (depsAt c i) [] (atDepth 1 c) = some (none, c₁) ∧
        inst = none ∧ c' = atDepth (c₁.resolveDepth - 1) c₁) ∨
      ∃ insts, buildDeps resolve (depsAt c i) [] (atDepth 1 c) = some (some insts, c₁) ∧
        inst = factories c₁.calls i insts ∧
        c' = logCall ⟨i, insts, inst⟩ (atDepth (c₁.resolveDepth - 1) c₁) := by
  have hguard : ¬(diMaxServices : Int) < (atDepth 0 c).resolveDepth := by
    simp [atDepth, diMaxServices]
  have hdepth : { atDepth 0 c with resolveDepth := (atDepth 0 c).resolveDepth + 1 } =
      atDepth 1 c := rfl
  have hsame : depsAt (atDepth 0 c) i = depsAt c i := rfl
  rw [diBuild, if_neg hguard, hdepth, hsame] at h
  cases hdeps : buildDeps resolve (depsAt c i) [] (atDepth 1 c) with
  | none =>
      rw [hdeps] at h
      exact absurd h (by simp)
  | some built =>
      obtain ⟨built, c₁⟩ := built
      rw [hdeps] at h
      cases built with
      | none =>
          obtain ⟨rfl, rfl⟩ := Prod.mk.inj (Option.some.inj h)
          exact ⟨c₁, .inl ⟨rfl, rfl, rfl⟩⟩
      | some insts =>
          obtain ⟨rfl, rfl⟩ := Prod.mk.inj (Option.some.inj h)
          exact ⟨c₁, .inr ⟨insts, rfl, rfl, rfl⟩⟩

theorem diResolve_cases {factories : Factories} {fuel : Nat} {c c' : DIContainer} {name : CStr}
    {inst : Option Instance} (h : diResolve factories (fuel + 1) c name = some (inst, c')) :
    (diFindEntry c name = none ∧ inst = none ∧ c' = c) ∨
      ∃ i, diFindEntry c name = some i ∧ ((cached c i = some inst ∧ c' = c) ∨
        (cached c i = none ∧ ∃ c₁,
          (buildDeps (diResolve factories fuel) (depsAt c i) [] (atDepth 1 c) = some (none, c₁) ∧
            inst = none ∧ c' = store c i none (atDepth (c₁.resolveDepth - 1) c₁)) ∨
          ∃ insts, buildDeps (diResolve factories fuel) (depsAt c i) [] (atDepth 1 c) =
              some (some insts, c₁) ∧ inst = factories c₁.calls i insts ∧
            c' = store c i inst
              (logCall ⟨i, insts, inst⟩ (atDepth (c₁.resolveDepth - 1) c₁)))) := by
  rw [diResolve_succ] at h
  cases hfind : diFindEntry c name with
  | none =>
      rw [hfind] at h
      obtain ⟨rfl, rfl⟩ := Prod.mk.inj (Option.some.inj h)
      exact .inl ⟨rfl, rfl, rfl⟩
  | some i =>
      rw [hfind] at h
      dsimp only at h
      refine .inr ⟨i, rfl, ?_⟩
      cases hcached : cached c i with
      | some r =>
          rw [hcached] at h
          obtain ⟨rfl, rfl⟩ := Prod.mk.inj (Option.some.inj h)
          exact .inl ⟨rfl, rfl⟩
      | none =>
          rw [hcached] at h
          obtain ⟨⟨inst', c₂⟩, hbuild, heq⟩ := Option.map_eq_some_iff.mp h
          obtain ⟨rfl, rfl⟩ := Prod.mk.inj heq
          refine .inr ⟨rfl, ?_⟩
          obtain ⟨c₁, hnone | hsome⟩ := diBuild_cases hbuild
          · obtain ⟨hdeps, rfl, rfl⟩ := hnone
            exact ⟨c₁, .inl ⟨hdeps, rfl, rfl⟩⟩
          · obtain ⟨insts, hdeps, hinst, rfl⟩ := hsome
            exact ⟨c₁, .inr ⟨insts, hdeps, hinst, rfl⟩⟩

/-- A service that is not cached is built as soon as its dependencies are resolved. -/
theorem diResolve_returns_of_deps {factories : Factories} {fuel : Nat} {c : DIContainer}
    {name : CStr} {i : Nat} (hfind : diFindEntry c name = some i)
    (hdeps : ∃ r, buildDeps (diResolve factories fuel) (depsAt c i) [] (atDepth 1 c) = some r) :
    ∃ r, diResolve factories (fuel + 1) c name = some r := by
  have hguard : ¬(diMaxServices : Int) < (atDepth 0 c).resolveDepth := by
    simp [atDepth, diMaxServices]
  rw [diResolve_succ, hfind]
  dsimp only
  cases cached c i with
  | some inst => exact ⟨_, rfl⟩
  | none =>
      obtain ⟨⟨insts, c₁⟩, hdeps⟩ := hdeps
      have hdeps' : buildDeps (diResolve factories fuel) (depsAt (atDepth 0 c) i) []
          { atDepth 0 c with resolveDepth := (atDepth 0 c).resolveDepth + 1 } =
            some (insts, c₁) := hdeps
      dsimp only
      rw [diBuild, if_neg hguard, hdeps']
      cases insts with
      | none => exact ⟨_, rfl⟩
      | some insts => exact ⟨_, rfl⟩

/-! ## The loop over the dependencies -/

section Loop

variable {resolve : DIContainer → CStr → Option (Option Instance × DIContainer)}

/-- How the loop ends when each resolution keeps `I` and gives `Q`, and none of them spoils a
`Q` from before: with all dependencies, or at the first one that cannot be resolved. -/
theorem buildDeps_rule {I : DIContainer → Prop} {Q : CStr → Option Instance → DIContainer → Prop}
    {deps : List CStr}
    (hstep : ∀ c dep inst c', dep ∈ deps → I c → resolve c dep = some (inst, c') →
      I c' ∧ Q dep inst c' ∧ ∀ d r, Q d r c → Q d r c')
    {c c' : DIContainer} {res : Option (List (Option Instance))} (hI : I c)
    (h : buildDeps resolve deps [] c = some (res, c')) :
    I c' ∧ ((∃ insts, res = some insts ∧
        List.Forall₂ (fun dep inst => Q dep inst c' ∧ (inst = none → dep = [])) deps insts) ∨
      res = none ∧ ∃ l₁ dep l₂, deps = l₁ ++ dep :: l₂ ∧ dep ≠ [] ∧ Q dep none c' ∧
        ∀ d ∈ l₁, ∃ inst, Q d inst c' ∧ (inst = none → d = [])) := by
  suffices hloop : ∀ rest done insts c, deps = done ++ rest → I c →
      List.Forall₂ (fun dep inst => Q dep inst c ∧ (inst = none → dep = [])) done insts →
      buildDeps resolve rest insts c = some (res, c') →
      I c' ∧ ((∃ insts, res = some insts ∧
          List.Forall₂ (fun dep inst => Q dep inst c' ∧ (inst = none → dep = [])) deps insts) ∨
        res = none ∧ ∃ l₁ dep l₂, deps = l₁ ++ dep :: l₂ ∧ dep ≠ [] ∧ Q dep none c' ∧
          ∀ d ∈ l₁, ∃ inst, Q d inst c' ∧ (inst = none → d = [])) from
    hloop deps [] [] c rfl hI .nil h
  intro rest
  induction rest with
  | nil =>
      intro done insts c hdeps hI hdone h
      obtain ⟨rfl, rfl⟩ := Prod.mk.inj (Option.some.inj h)
      rw [List.append_nil] at hdeps
      exact ⟨hI, .inl ⟨insts, rfl, hdeps ▸ hdone⟩⟩
  | cons dep rest ih =>
      intro done insts c hdeps hI hdone h
      rw [buildDeps] at h
      match hr : resolve c dep with
      | none =>
          rw [hr] at h
          exact absurd h (by simp)
      | some (inst, c₁) =>
          rw [hr] at h
          dsimp only at h
          obtain ⟨hI₁, hQ, hkeep⟩ := hstep c dep inst c₁ (by simp [hdeps]) hI hr
          have hdone₁ := hdone.imp fun d r h => And.intro (hkeep d r h.1) h.2
          by_cases hfail : inst = none ∧ dep ≠ []
          · rw [if_pos hfail] at h
            obtain ⟨rfl, rfl⟩ := Prod.mk.inj (Option.some.inj h)
            refine ⟨hI₁, .inr ⟨rfl, done, dep, rest, hdeps, hfail.2, hfail.1 ▸ hQ, ?_⟩⟩
            intro d hd
            obtain ⟨k, hk, rfl⟩ := List.mem_iff_getElem.mp hd
            have hlen := hdone₁.length_eq
            have hk' : k < insts.length := hlen ▸ hk
            exact ⟨insts[k], hdone₁.get hk hk'⟩
          · rw [if_neg hfail] at h
            refine ih (done ++ [dep]) (insts ++ [inst]) c₁ (by simp [hdeps]) hI₁ ?_ h
            refine List.rel_append hdone₁ (.cons ⟨hQ, fun hnone => ?_⟩ .nil)
            by_contra hne
            exact hfail ⟨hnone, hne⟩

/-- The loop ends when every dependency that it gets to can be resolved. -/
theorem buildDeps_returns {I : DIContainer → Prop} {Q : CStr → Prop} {deps : List CStr}
    (hkeep : ∀ c dep inst c', I c → resolve c dep = some (inst, c') →
      I c' ∧ (inst ≠ none → Q dep))
    (hresolve : ∀ c l₁ dep l₂, deps = l₁ ++ dep :: l₂ → I c → (∀ d ∈ l₁, d ≠ [] → Q d) →
      ∃ r, resolve c dep = some r) {c : DIContainer} (hI : I c) :
    ∃ r, buildDeps resolve deps [] c = some r := by
  suffices hloop : ∀ rest done insts c, deps = done ++ rest → I c → (∀ d ∈ done, d ≠ [] → Q d) →
      ∃ r, buildDeps resolve rest insts c = some r from
    hloop deps [] [] c rfl hI (by simp)
  intro rest
  induction rest with
  | nil => exact fun done insts c _ _ _ => ⟨_, rfl⟩
  | cons dep rest ih =>
      intro done insts c hdeps hI hdone
      obtain ⟨⟨inst, c₁⟩, hr⟩ := hresolve c done dep rest hdeps hI hdone
      obtain ⟨hI₁, hQ⟩ := hkeep c dep inst c₁ hI hr
      rw [buildDeps, hr]
      dsimp only
      by_cases hfail : inst = none ∧ dep ≠ []
      · exact ⟨_, if_pos hfail⟩
      · rw [if_neg hfail]
        refine ih (done ++ [dep]) _ c₁ (by simp [hdeps]) hI₁ fun d hd hne => ?_
        rcases List.mem_append.mp hd with hd | hd
        · exact hdone d hd hne
        · obtain rfl := List.mem_singleton.mp hd
          exact hQ fun hnone => hfail ⟨hnone, hne⟩

theorem buildDeps_mono {resolve' : DIContainer → CStr → Option (Option Instance × DIContainer)}
    (h : ∀ c dep r, resolve c dep = some r → resolve' c dep = some r) {deps : List CStr}
    {insts : List (Option Instance)} {c : DIContainer}
    {r : Option (List (Option Instance)) × DIContainer}
    (hr : buildDeps resolve deps insts c = some r) : buildDeps resolve' deps insts c = some r := by
  induction deps generalizing insts c with
  | nil => exact hr
  | cons dep rest ih =>
      rw [buildDeps] at hr ⊢
      match hd : resolve c dep with
      | none =>
          rw [hd] at hr
          exact absurd hr (by simp)
      | some (inst, c₁) =>
          rw [hd] at hr
          rw [h c dep _ hd]
          dsimp only at hr ⊢
          by_cases hfail : inst = none ∧ dep ≠ []
          · rwa [if_pos hfail] at hr ⊢
          · rw [if_neg hfail] at hr ⊢
            exact ih hr

end Loop

/-! ## Whole resolutions -/

theorem sameServices_setInstance (c : DIContainer) (i : Nat) (inst : Option Instance) :
    SameServices c (setInstance c i inst) := by
  refine ⟨?_, rfl⟩
  apply List.ext_getElem?
  intro j
  simp only [setInstance, List.getElem?_map, List.getElem?_modify]
  cases c.entries[j]? with
  | none => rfl
  | some entry =>
      by_cases hij : i = j
      · simp [hij, planOf]
      · simp [hij]

theorem sameServices_store (c₀ : DIContainer) (i : Nat) (inst : Option Instance)
    (c : DIContainer) : SameServices c (store c₀ i inst c) := by
  rw [store]
  split
  · exact sameServices_setInstance c i inst
  · split
    · exact ⟨rfl, rfl⟩
    · exact .refl c

theorem diResolve_sameServices {factories : Factories} {fuel : Nat} {c c' : DIContainer}
    {name : CStr} {inst : Option Instance}
    (h : diResolve factories fuel c name = some (inst, c')) : SameServices c c' := by
  induction fuel generalizing c c' name inst with
  | zero => exact absurd h (by simp [diResolve])
  | succ fuel ih =>
      have hloop : ∀ {i res c₁}, buildDeps (diResolve factories fuel) (depsAt c i) []
          (atDepth 1 c) = some (res, c₁) → SameServices c c₁ := by
        intro i res c₁ hdeps
        exact (buildDeps_rule (Q := fun _ _ _ => True)
          (fun _ _ _ _ _ hsame hr => ⟨hsame.trans (ih hr), trivial, fun _ _ _ => trivial⟩)
          ⟨rfl, rfl⟩ hdeps).1
      rcases diResolve_cases h with ⟨-, -, rfl⟩ | ⟨i, -, ⟨-, rfl⟩ | ⟨-, c₁, h⟩⟩
      · exact .refl c'
      · exact .refl c'
      · rcases h with ⟨hdeps, -, rfl⟩ | ⟨insts, hdeps, -, rfl⟩
        · have hsame : SameServices c (atDepth (c₁.resolveDepth - 1) c₁) :=
            (hloop hdeps).trans ⟨rfl, rfl⟩
          exact hsame.trans (sameServices_store c i none _)
        · have hsame : SameServices c
              (logCall ⟨i, insts, inst⟩ (atDepth (c₁.resolveDepth - 1) c₁)) :=
            (hloop hdeps).trans ⟨rfl, rfl⟩
          exact hsame.trans (sameServices_store c i inst _)

theorem diResolve_mono {factories : Factories} {fuel fuel' : Nat} (hle : fuel ≤ fuel')
    {c : DIContainer} {name : CStr} {r : Option Instance × DIContainer}
    (h : diResolve factories fuel c name = some r) : diResolve factories fuel' c name = some r := by
  induction fuel generalizing fuel' c name r with
  | zero => exact absurd h (by simp [diResolve])
  | succ fuel ih =>
      obtain ⟨fuel', rfl⟩ : ∃ n, fuel' = n + 1 := ⟨fuel' - 1, by omega⟩
      have hbuild : ∀ {c i r}, diBuild factories (diResolve factories fuel) c i = some r →
          diBuild factories (diResolve factories fuel') c i = some r := by
        intro c i r hr
        rw [diBuild] at hr ⊢
        split at hr
        · next hguard => rwa [if_pos hguard]
        · next hguard =>
            rw [if_neg hguard]
            match hdeps : buildDeps (diResolve factories fuel) (depsAt c i) []
                { c with resolveDepth := c.resolveDepth + 1 } with
            | none =>
                rw [hdeps] at hr
                exact absurd hr (by simp)
            | some res =>
                rw [hdeps] at hr
                rwa [buildDeps_mono (fun c dep r hr => ih (by omega) hr) hdeps]
      rw [diResolve_succ] at h ⊢
      match hfind : diFindEntry c name with
      | none => rwa [hfind] at h
      | some i =>
          rw [hfind] at h
          dsimp only at h ⊢
          match hcached : cached c i with
          | some inst => rwa [hcached] at h
          | none =>
              rw [hcached] at h
              dsimp only at h ⊢
              obtain ⟨r', hr', rfl⟩ := Option.map_eq_some_iff.mp h
              rw [hbuild hr', Option.map_some]

/-- Where the services that a resolution visits are worked off from below, it ends.  `Q` is
what a service needs for the dependencies after it to be visited. -/
theorem diResolve_returns (factories : Factories) {I : DIContainer → Prop} {Q : CStr → Prop}
    {V : Nat → Nat → Prop} {n : Nat}
    (hkeep : ∀ fuel c name inst c', I c → diResolve factories fuel c name = some (inst, c') →
      I c' ∧ (inst ≠ none → Q name))
    (hdepth : ∀ c depth, I c → I (atDepth depth c))
    (hlen : ∀ c, I c → c.entries.length = n)
    (hvisit : ∀ c i l₁ dep l₂ j, I c → depsAt c i = l₁ ++ dep :: l₂ →
      (∀ d ∈ l₁, d ≠ [] → Q d) → diFindEntry c dep = some j → V i j)
    {i : Nat} (hacc : Acc (Function.swap V) i) :
    ∀ᶠ fuel in Filter.atTop, ∀ c name, I c → diFindEntry c name = some i →
      ∃ r, diResolve factories fuel c name = some r := by
  induction hacc with
  | intro i _ ih =>
      have hbelow : ∀ᶠ fuel in Filter.atTop, ∀ j ∈ Finset.range n, V i j →
          ∀ c name, I c → diFindEntry c name = some j →
            ∃ r, diResolve factories fuel c name = some r := by
        rw [Filter.eventually_all_finset]
        intro j _
        by_cases hj : V i j
        · exact (ih j hj).mono fun fuel h _ => h
        · exact Filter.Eventually.of_forall fun fuel h => absurd h hj
      obtain ⟨depth, hdepths⟩ := Filter.eventually_atTop.mp hbelow
      refine Filter.eventually_atTop.mpr ⟨depth + 2, fun fuel hfuel c name hI hfind => ?_⟩
      obtain ⟨fuel, rfl⟩ : ∃ m, fuel = m + 2 := ⟨fuel - 2, by omega⟩
      refine diResolve_returns_of_deps hfind ?_
      refine buildDeps_returns (I := fun c' => I c' ∧ SameServices c c') (Q := Q)
        ?_ ?_ ⟨hdepth c 1 hI, ⟨rfl, rfl⟩⟩
      · rintro c₁ dep inst c₂ ⟨hI₁, hsame⟩ hr
        obtain ⟨hI₂, hQ⟩ := hkeep (fuel + 1) c₁ dep inst c₂ hI₁ hr
        exact ⟨⟨hI₂, hsame.trans (diResolve_sameServices hr)⟩, hQ⟩
      · rintro c₁ l₁ dep l₂ hdeps ⟨hI₁, hsame⟩ hQ
        cases hdep : diFindEntry c₁ dep with
        | none =>
            rw [diResolve_succ, hdep]
            exact ⟨_, rfl⟩
        | some j =>
            have hj : j ∈ Finset.range n :=
              Finset.mem_range.mpr (hlen c₁ hI₁ ▸ diFindEntry_lt hdep)
            have hV := hvisit c₁ i l₁ dep l₂ j hI₁ (by rw [hsame.depsAt_eq, hdeps]) hQ hdep
            exact hdepths (fuel + 1) (by omega) j hj hV c₁ dep hI₁ hdep

end MiniBackend.Framework.Proofs.DiResolution
