import MiniBackend.Framework.Proofs.DiResolution

/-!
# The order of the bulk resolution

The loop of `di_resolve_all` keeps in `in_degree` the number of dependencies that do not name
a service taken from the queue before.  It takes all services exactly when every dependency is
known and no service depends on itself.
-/

namespace MiniBackend.Framework.Proofs.DiOrder

open Relation
open MiniBackend.Lib.CString MiniBackend.Lib.Digraph MiniBackend.Framework.Di
open MiniBackend.Framework.Proofs.DiResolution

def DistinctNames (c : DIContainer) : Prop := (c.entries.map DIServiceEntry.name).Nodup

def AllKnown (c : DIContainer) : Prop :=
  ∀ i, ∀ dep ∈ depsAt c i, ∃ j, diFindEntry c dep = some j

def nameAt (c : DIContainer) (i : Nat) : CStr := ((c.entries[i]?).map DIServiceEntry.name).getD []

theorem nameAt_eq {c : DIContainer} {i : Nat} {entry : DIServiceEntry}
    (h : c.entries[i]? = some entry) : nameAt c i = entry.name := by simp [nameAt, h]

theorem diFindEntry_nameAt {c : DIContainer} (hnames : DistinctNames c) {i : Nat}
    (hi : i < c.entries.length) : diFindEntry c (nameAt c i) = some i := by
  rw [nameAt_eq (List.getElem?_eq_getElem hi), diFindEntry, List.findIdx?_eq_some_iff_getElem]
  refine ⟨hi, by simp, fun j hji => ?_⟩
  have hne : c.entries[j].name ≠ c.entries[i].name := by
    intro heq
    have hj : j < c.entries.length := hji.trans hi
    have hjmap : j < (c.entries.map DIServiceEntry.name).length := by simpa using hj
    have himap : i < (c.entries.map DIServiceEntry.name).length := by simpa using hi
    have hsame : (c.entries.map DIServiceEntry.name)[j] =
        (c.entries.map DIServiceEntry.name)[i] := by simpa using heq
    exact absurd ((List.Nodup.getElem_inj_iff hnames).mp hsame) (Nat.ne_of_lt hji)
  simpa using hne

theorem nameAt_of_find {c : DIContainer} {name : CStr} {i : Nat}
    (h : diFindEntry c name = some i) : nameAt c i = name := by
  obtain ⟨hi, heq, -⟩ := List.findIdx?_eq_some_iff_getElem.mp h
  rw [nameAt_eq (List.getElem?_eq_getElem hi)]
  simpa using heq

theorem nameAt_sameServices {c c' : DIContainer} (h : SameServices c c') (i : Nat) :
    nameAt c' i = nameAt c i := by
  have hplan : ∀ c : DIContainer, c.entries[i]?.map DIServiceEntry.name =
      (c.entries[i]?.map planOf).map DIServiceEntry.name := by
    intro c
    cases c.entries[i]? <;> rfl
  rw [nameAt, nameAt, hplan c', h.getElem?_eq, ← hplan c]

/-! ## The inner loops -/

theorem foldl_relaxDep (name : CStr) (i : Nat) (deps : List CStr) (inDegree : Nat → Int)
    (queue : List Nat) :
    deps.foldl (relaxDep name i) (inDegree, queue) =
      (Function.update inDegree i (inDegree i - deps.count name),
        if 0 < inDegree i ∧ inDegree i ≤ deps.count name then queue ++ [i] else queue) := by
  induction deps generalizing inDegree queue with
  | nil =>
      have hnot : ¬(0 < inDegree i ∧ inDegree i ≤ 0) := by omega
      simp [hnot]
  | cons dep rest ih =>
      rw [List.foldl_cons, relaxDep]
      by_cases hdep : dep = name
      · subst hdep
        rw [if_pos rfl]
        dsimp only
        rw [ih, List.count_cons_self, Function.update_self, Function.update_idem]
        have hcount : inDegree i - 1 - (rest.count dep : Int) =
            inDegree i - ((rest.count dep + 1 : Nat) : Int) := by
          push_cast
          omega
        refine Prod.ext (by rw [hcount]) ?_
        dsimp only
        by_cases hlast : inDegree i - 1 = 0
        · have h₁ : ¬(0 < inDegree i - 1 ∧ inDegree i - 1 ≤ (rest.count dep : Int)) := by omega
          have h₂ : 0 < inDegree i ∧ inDegree i ≤ ((rest.count dep + 1 : Nat) : Int) := by
            push_cast
            omega
          rw [if_neg h₁, if_pos h₂, if_pos hlast]
        · have h : 0 < inDegree i - 1 ∧ inDegree i - 1 ≤ (rest.count dep : Int) ↔
              0 < inDegree i ∧ inDegree i ≤ ((rest.count dep + 1 : Nat) : Int) := by
            push_cast
            omega
          rw [if_neg hlast]
          exact if_congr h rfl rfl
      · rw [if_neg hdep, ih, List.count_cons_of_ne hdep]

theorem foldl_relaxAll (c : DIContainer) (name : CStr) {l : List Nat} (hl : l.Nodup)
    (inDegree : Nat → Int) (queue : List Nat) :
    l.foldl (fun st i => (depsAt c i).foldl (relaxDep name i) st) (inDegree, queue) =
      ((fun i => if i ∈ l then inDegree i - (depsAt c i).count name else inDegree i),
        queue ++ l.filter fun i =>
          0 < inDegree i ∧ inDegree i ≤ (depsAt c i).count name) := by
  induction l generalizing inDegree queue with
  | nil => simp
  | cons i l ih =>
      obtain ⟨hi, hl⟩ := List.nodup_cons.mp hl
      have hrest : ∀ j ∈ l, ∀ d, Function.update inDegree i d j = inDegree j := by
        intro j hj d
        have hne : j ≠ i := fun heq => hi (heq ▸ hj)
        rw [Function.update_of_ne hne]
      rw [List.foldl_cons, foldl_relaxDep, ih hl]
      refine Prod.ext ?_ ?_
      · funext j
        by_cases hji : j = i
        · simp [hji, hi]
        · simp [hji]
      · have hfilter : ∀ d, l.filter (fun j =>
            decide (0 < Function.update inDegree i d j ∧
              Function.update inDegree i d j ≤ (depsAt c j).count name)) =
            l.filter fun j => 0 < inDegree j ∧ inDegree j ≤ (depsAt c j).count name :=
          fun d => List.filter_congr fun j hj => by rw [hrest j hj d]
        dsimp only
        rw [hfilter, List.filter_cons]
        by_cases hpos : 0 < inDegree i ∧ inDegree i ≤ (depsAt c i).count name
        · simp [hpos]
        · rw [if_neg hpos, if_neg (by simpa using hpos)]

theorem relaxAll_eq (c : DIContainer) (name : CStr) (inDegree : Nat → Int) (queue : List Nat) :
    relaxAll c name (inDegree, queue) =
      ((fun i => inDegree i - (depsAt c i).count name),
        queue ++ (List.range c.entries.length).filter fun i =>
          0 < inDegree i ∧ inDegree i ≤ (depsAt c i).count name) := by
  rw [relaxAll, foldl_relaxAll c name List.nodup_range]
  refine Prod.ext ?_ rfl
  funext i
  by_cases hi : i < c.entries.length
  · simp [hi]
  · simp [hi, depsAt_of_le (Nat.le_of_not_lt hi)]

/-! ## The loop -/

/-- The dependencies of a service that name none of the services in the list. -/
def pending (c : DIContainer) (done : List Nat) (i : Nat) : Nat :=
  (depsAt c i).countP fun dep => dep ∉ done.map (nameAt c)

/-- The invariant of the loop: `done` has been taken from the queue. -/
structure KahnState (c : DIContainer) (inDegree : Nat → Int) (queue done : List Nat) : Prop where
  lt : ∀ i ∈ done ++ queue, i < c.entries.length
  nodup : (done ++ queue).Nodup
  inDegree_eq : ∀ i < c.entries.length, inDegree i = pending c done i
  mem_iff : ∀ i < c.entries.length, i ∈ done ++ queue ↔ inDegree i = 0
  ordered : ∀ i ∈ done, ∀ dep ∈ depsAt c i, ∃ j, diFindEntry c dep = some j ∧ Precedes done j i

theorem countP_not_mem_concat {known : List CStr} {a : CStr} (ha : a ∉ known)
    (l : List CStr) :
    l.countP (· ∉ known ++ [a]) + l.count a = l.countP (· ∉ known) := by
  induction l with
  | nil => rfl
  | cons b l ih =>
      rw [List.countP_cons, List.countP_cons, List.count_cons, ← ih]
      by_cases hba : b = a
      · simp [hba, ha]
        omega
      · by_cases hb : b ∈ known
        · simp [hba, hb]
        · simp [hba, hb]
          omega

theorem pending_concat {c : DIContainer} (hnames : DistinctNames c) {done : List Nat} {u : Nat}
    (hu : u ∉ done) (hlt : ∀ i ∈ done, i < c.entries.length) (hun : u < c.entries.length)
    (i : Nat) :
    (pending c (done ++ [u]) i : Int) = pending c done i - (depsAt c i).count (nameAt c u) := by
  have hnew : nameAt c u ∉ done.map (nameAt c) := by
    intro hmem
    obtain ⟨v, hv, heq⟩ := List.mem_map.mp hmem
    have hfind := diFindEntry_nameAt hnames (hlt v hv)
    rw [heq, diFindEntry_nameAt hnames hun] at hfind
    exact hu (Option.some.inj hfind ▸ hv)
  have hcount := countP_not_mem_concat hnew (depsAt c i)
  rw [pending, pending, List.map_append, List.map_singleton]
  omega

theorem KahnState.deps_mem {c : DIContainer} {inDegree : Nat → Int} {queue done : List Nat}
    (h : KahnState c inDegree queue done) {i : Nat} (hi : i < c.entries.length)
    (hzero : inDegree i = 0) : ∀ dep ∈ depsAt c i, dep ∈ done.map (nameAt c) := by
  have hcount : pending c done i = 0 := by
    have := h.inDegree_eq i hi
    omega
  intro dep hdep
  simpa using List.countP_eq_zero.mp hcount dep hdep

theorem KahnState.step {c : DIContainer} (hnames : DistinctNames c) {inDegree : Nat → Int}
    {u : Nat} {queue done : List Nat} (h : KahnState c inDegree (u :: queue) done) :
    KahnState c (relaxAll c (nameAt c u) (inDegree, queue)).1
      (relaxAll c (nameAt c u) (inDegree, queue)).2 (done ++ [u]) := by
  have hu : u < c.entries.length := h.lt u (by simp)
  have hdone : ∀ i ∈ done, i < c.entries.length := fun i hi =>
    h.lt i (List.mem_append_left _ hi)
  have hud : u ∉ done := by
    have := List.nodup_append.mp h.nodup
    exact fun hmem => this.2.2 u hmem u List.mem_cons_self rfl
  have hpending : ∀ i < c.entries.length,
      inDegree i - (depsAt c i).count (nameAt c u) = pending c (done ++ [u]) i := by
    intro i hi
    rw [pending_concat hnames hud hdone hu, h.inDegree_eq i hi]
  rw [relaxAll_eq]
  dsimp only
  have hmem : ∀ i, i ∈ (done ++ [u]) ++ (queue ++ (List.range c.entries.length).filter fun i =>
      0 < inDegree i ∧ inDegree i ≤ (depsAt c i).count (nameAt c u)) ↔
      i ∈ done ++ u :: queue ∨ (i < c.entries.length ∧ 0 < inDegree i ∧
        inDegree i ≤ (depsAt c i).count (nameAt c u)) := by
    intro i
    simp only [List.mem_append, List.mem_cons, List.mem_filter, List.mem_range,
      List.not_mem_nil, or_false, decide_eq_true_eq]
    tauto
  refine ⟨fun i hi => ?_, ?_, hpending, fun i hi => ?_, fun i hi dep hdep => ?_⟩
  · rcases (hmem i).mp hi with hi | ⟨hi, -⟩
    · exact h.lt i hi
    · exact hi
  · have hold : ((done ++ [u]) ++ queue).Nodup := by simpa using h.nodup
    rw [← List.append_assoc]
    refine List.nodup_append.mpr ⟨hold, List.nodup_range.filter _, ?_⟩
    intro i hi j hj hij
    subst hij
    obtain ⟨hlt, hpos, -⟩ : i < c.entries.length ∧ 0 < inDegree i ∧
        inDegree i ≤ (depsAt c i).count (nameAt c u) := by
      simpa using hj
    have hzero := (h.mem_iff i hlt).mp (by simpa using hi)
    omega
  · rw [hmem i, h.mem_iff i hi]
    have hnew := hpending i hi
    have hold := h.inDegree_eq i hi
    omega
  · rcases List.mem_append.mp hi with hi | hi
    · obtain ⟨j, hj, hbefore⟩ := h.ordered i hi dep hdep
      exact ⟨j, hj, hbefore.append [u]⟩
    · obtain rfl := List.mem_singleton.mp hi
      have hzero := (h.mem_iff i hu).mp (by simp)
      obtain ⟨j, hj, rfl⟩ := List.mem_map.mp (h.deps_mem hu hzero dep hdep)
      exact ⟨j, diFindEntry_nameAt hnames (hdone j hj), precedes_concat hj i⟩

theorem kahnState_init (c : DIContainer) :
    KahnState c (fun i => ((depsAt c i).length : Int))
      ((List.range c.entries.length).filter fun i => ((depsAt c i).length : Int) = 0) [] where
  lt i hi := by
    simp only [List.nil_append, List.mem_filter, List.mem_range] at hi
    exact hi.1
  nodup := List.nodup_range.filter _
  inDegree_eq i hi := by simp [pending]
  mem_iff i hi := by simp [hi]
  ordered i hi := absurd hi List.not_mem_nil

theorem KahnState.acc {c : DIContainer} {inDegree : Nat → Int} {queue done : List Nat}
    (h : KahnState c inDegree queue done) {i : Nat} (hi : i ∈ done) :
    Acc (Function.swap (DependsOn c)) i := by
  have hnodup : done.Nodup := (List.nodup_append.mp h.nodup).1
  induction hk : done.idxOf i using Nat.strong_induction_on generalizing i with
  | _ k ih =>
      refine Acc.intro i fun j hij => ?_
      obtain ⟨dep, hdep, hj⟩ := hij
      obtain ⟨j', hj', hbefore⟩ := h.ordered i hi dep hdep
      obtain rfl := Option.some.inj (hj.symm.trans hj')
      have hmem : j ∈ done := hbefore.subset (by simp)
      exact ih (done.idxOf j) (hk ▸ hbefore.idxOf_lt hnodup) hmem rfl

/-- With an empty queue all services have been taken exactly when the bulk resolution should
succeed. -/
theorem KahnState.complete_iff {c : DIContainer} {inDegree : Nat → Int} {done : List Nat}
    (h : KahnState c inDegree [] done) :
    done.length = c.entries.length ↔ AllKnown c ∧ Acyclic (DependsOn c) := by
  have hlt : ∀ i ∈ done, i < c.entries.length := fun i hi => h.lt i (by simpa using hi)
  have hnodup : done.Nodup := by simpa using h.nodup
  have hsub : done ⊆ List.range c.entries.length := fun i hi => List.mem_range.mpr (hlt i hi)
  constructor
  · intro hlen
    have hperm : done.Perm (List.range c.entries.length) :=
      (List.subperm_of_subset hnodup hsub).perm_of_length_le (by simp [hlen])
    have hall : ∀ i < c.entries.length, i ∈ done := fun i hi =>
      hperm.mem_iff.mpr (List.mem_range.mpr hi)
    constructor
    · intro i dep hdep
      by_cases hi : i < c.entries.length
      · obtain ⟨j, hj, -⟩ := h.ordered i (hall i hi) dep hdep
        exact ⟨j, hj⟩
      · rw [depsAt_of_le (Nat.le_of_not_lt hi)] at hdep
        exact absurd hdep List.not_mem_nil
    · intro i hcycle
      have hacc : Acc (Function.swap (DependsOn c)) i := by
        by_cases hi : i < c.entries.length
        · exact h.acc (hall i hi)
        · obtain ⟨j, ⟨dep, hdep, -⟩, -⟩ := TransGen.head'_iff.mp hcycle
          rw [depsAt_of_le (Nat.le_of_not_lt hi)] at hdep
          exact absurd hdep List.not_mem_nil
      exact (acc_swap_iff (finite_services c) (fun _ _ h => h.lt) i).mp hacc ⟨i, .refl, hcycle⟩
  · rintro ⟨hknown, hacyclic⟩
    have hall : ∀ i, i < c.entries.length → i ∈ done := by
      intro i
      have hacc := (acc_swap_iff (finite_services c) (fun _ _ h => h.lt) i).mpr
        (hacyclic.not_reachesCycle i)
      induction hacc with
      | intro i _ ih =>
          intro hi
          have hzero : inDegree i = 0 := by
            rw [h.inDegree_eq i hi, Int.natCast_eq_zero, pending, List.countP_eq_zero]
            intro dep hdep
            obtain ⟨j, hj⟩ := hknown i dep hdep
            have hmem := ih j ⟨dep, hdep, hj⟩ (diFindEntry_lt hj)
            have hname := List.mem_map_of_mem (f := nameAt c) hmem
            rw [nameAt_of_find hj] at hname
            simpa using hname
          simpa using (h.mem_iff i hi).mpr hzero
    have hperm : done.Perm (List.range c.entries.length) := by
      refine (List.perm_ext_iff_of_nodup hnodup List.nodup_range).mpr fun i => ?_
      exact ⟨fun hi => hsub hi, fun hi => hall i (List.mem_range.mp hi)⟩
    rw [hperm.length_eq, List.length_range]

/-! ## The whole loop -/

theorem resolves_acyclic (factories : Factories) (c₀ : DIContainer) :
    ∀ᶠ fuel in Filter.atTop, ∀ i ∈ Finset.range c₀.entries.length,
      Acc (Function.swap (DependsOn c₀)) i → ∀ c name, SameServices c₀ c →
        diFindEntry c name = some i → ∃ r, diResolve factories fuel c name = some r := by
  rw [Filter.eventually_all_finset]
  intro i _
  by_cases hacc : Acc (Function.swap (DependsOn c₀)) i
  · have hreturns := diResolve_returns factories (I := SameServices c₀)
      (Q := fun _ => True) (n := c₀.entries.length)
      (fun _ _ _ _ _ hsame hr => ⟨hsame.trans (diResolve_sameServices hr), fun _ => trivial⟩)
      (fun _ _ hsame => hsame.trans ⟨rfl, rfl⟩) (fun _ hsame => hsame.length_eq)
      (fun c i l₁ dep l₂ j hsame hdeps _ hdep => ?_) hacc
    · exact hreturns.mono fun fuel h _ => h
    · rw [hsame.depsAt_eq] at hdeps
      rw [hsame.diFindEntry_eq] at hdep
      exact ⟨dep, by simp [hdeps], hdep⟩
  · exact Filter.Eventually.of_forall fun fuel h => absurd h hacc

/-- How the loop ends when each resolution keeps `I` and gives `Q` for its service, and none of
them spoils a `Q` from before. -/
theorem resolveAllLoop_spec {factories : Factories} {fuel : Nat} {c₀ : DIContainer}
    (hnames : DistinctNames c₀) {I : DIContainer → Prop} {Q : Nat → DIContainer → Prop}
    (hsame : ∀ c, I c → SameServices c₀ c)
    (hstep : ∀ c name inst c', I c → diResolve factories fuel c name = some (inst, c') →
      I c' ∧ (∀ i, diFindEntry c₀ name = some i → Q i c') ∧ ∀ i, Q i c → Q i c')
    (hfuel : ∀ i ∈ Finset.range c₀.entries.length, Acc (Function.swap (DependsOn c₀)) i →
      ∀ c name, I c → diFindEntry c name = some i →
        ∃ r, diResolve factories fuel c name = some r)
    {rounds : Nat} {inDegree : Nat → Int} {queue done : List Nat} {c : DIContainer}
    (hstate : KahnState c₀ inDegree queue done)
    (hrounds : c₀.entries.length ≤ rounds + done.length) (hI : I c)
    (hQ : ∀ i ∈ done, ScopeAt c₀ i .singleton → Q i c) :
    ∃ done' inDegree' c', resolveAllLoop factories fuel rounds inDegree queue done.length c =
        some ((done'.length : Int), c') ∧ KahnState c₀ inDegree' [] done' ∧ I c' ∧
      ∀ i ∈ done', ScopeAt c₀ i .singleton → Q i c' := by
  induction rounds generalizing inDegree queue done c with
  | zero =>
      cases queue with
      | nil => exact ⟨done, inDegree, c, rfl, hstate, hI, hQ⟩
      | cons u queue =>
          -- more services than there are would be known
          have hle : (done ++ u :: queue).length ≤ (List.range c₀.entries.length).length :=
            (List.subperm_of_subset hstate.nodup
              fun i hi => List.mem_range.mpr (hstate.lt i hi)).length_le
          simp only [List.length_append, List.length_cons, List.length_range] at hle
          omega
  | succ rounds ih =>
      cases queue with
      | nil => exact ⟨done, inDegree, c, rfl, hstate, hI, hQ⟩
      | cons u queue =>
          have hu : u < c₀.entries.length := hstate.lt u (by simp)
          have hlen := (hsame c hI).length_eq
          have hlt : u < c.entries.length := hlen ▸ hu
          have hentry := List.getElem?_eq_getElem hlt
          generalize c.entries[u] = entry at hentry
          have hname : nameAt c₀ u = entry.name := by
            rw [← nameAt_sameServices (hsame c hI), nameAt_eq hentry]
          have hnext := hstate.step hnames
          have hfind : diFindEntry c₀ entry.name = some u := hname ▸ diFindEntry_nameAt hnames hu
          have hrounds' : c₀.entries.length ≤ rounds + (done ++ [u]).length := by
            simp only [List.length_append, List.length_singleton]
            omega
          have hcount : (done.length : Int) + 1 = (done ++ [u]).length := by simp
          obtain ⟨c₁, hresolve, hI₁, hQ₁⟩ : ∃ c₁,
              resolveSingleton factories fuel c entry = some c₁ ∧ I c₁ ∧
                ∀ i ∈ done ++ [u], ScopeAt c₀ i .singleton → Q i c₁ := by
            have hscope : ScopeAt c₀ u .singleton ↔ entry.scope = .singleton := by
              rw [← (hsame c hI).scopeAt_iff, ScopeAt, hentry]
              simp
            rw [resolveSingleton]
            by_cases hsingle : entry.scope = .singleton
            · have hacc : Acc (Function.swap (DependsOn c₀)) u :=
                hnext.acc (List.mem_append_right done (by simp))
              obtain ⟨⟨inst, c₁⟩, hr⟩ := hfuel u (Finset.mem_range.mpr hu) hacc c entry.name
                hI ((hsame c hI).diFindEntry_eq _ ▸ hfind)
              obtain ⟨hI₁, hnew, hkeep⟩ := hstep c entry.name inst c₁ hI hr
              refine ⟨c₁, by rw [if_pos hsingle, hr]; rfl, hI₁, fun i hi hi' => ?_⟩
              rcases List.mem_append.mp hi with hi | hi
              · exact hkeep i (hQ i hi hi')
              · exact List.mem_singleton.mp hi ▸ hnew u hfind
            · refine ⟨c, if_neg hsingle, hI, fun i hi hi' => ?_⟩
              rcases List.mem_append.mp hi with hi | hi
              · exact hQ i hi hi'
              · obtain rfl := List.mem_singleton.mp hi
                exact absurd (hscope.mp hi') hsingle
          have hrelax : relaxAll c₁ entry.name (inDegree, queue) =
              relaxAll c₀ (nameAt c₀ u) (inDegree, queue) := by
            have hsame₁ := hsame c₁ hI₁
            rw [relaxAll_eq, relaxAll_eq, hname, hsame₁.length_eq]
            simp only [hsame₁.depsAt_eq]
          obtain ⟨done', inDegree', c', hloop, hfinal⟩ := ih hnext hrounds' hI₁ hQ₁
          refine ⟨done', inDegree', c', ?_, hfinal⟩
          rw [resolveAllLoop, hentry]
          dsimp only
          rw [hresolve]
          dsimp only
          rw [hrelax, hcount, hloop]

theorem diResolveAll_spec {factories : Factories} {fuel : Nat} {c₀ : DIContainer}
    (hnames : DistinctNames c₀) {I : DIContainer → Prop} {Q : Nat → DIContainer → Prop}
    (hsame : ∀ c, I c → SameServices c₀ c)
    (hstep : ∀ c name inst c', I c → diResolve factories fuel c name = some (inst, c') →
      I c' ∧ (∀ i, diFindEntry c₀ name = some i → Q i c') ∧ ∀ i, Q i c → Q i c')
    (hfuel : ∀ i ∈ Finset.range c₀.entries.length, Acc (Function.swap (DependsOn c₀)) i →
      ∀ c name, I c → diFindEntry c name = some i →
        ∃ r, diResolve factories fuel c name = some r)
    {c : DIContainer} (hI : I c) :
    ∃ code c', diResolveAll factories fuel c = some (code, c') ∧ I c' ∧
      (code = 0 ↔ AllKnown c₀ ∧ Acyclic (DependsOn c₀)) ∧
      (code = 0 → ∀ i, ScopeAt c₀ i .singleton → Q i c') := by
  have hlen := (hsame c hI).length_eq
  obtain ⟨done, inDegree, c', hloop, hfinal, hI', hQ⟩ :=
    resolveAllLoop_spec hnames hsame hstep hfuel (kahnState_init c₀)
      (Nat.le_add_right _ _) hI (fun _ hi => absurd hi List.not_mem_nil)
  have hall : diResolveAll factories fuel c =
      some (if (done.length : Int) = c'.entries.length then 0 else -1, c') := by
    have hdeps : ∀ i, depsAt c i = depsAt c₀ i := (hsame c hI).depsAt_eq
    simp only [diResolveAll, hdeps, hlen]
    rw [List.length_nil] at hloop
    exact congrArg _ hloop
  have hiff : (if (done.length : Int) = c'.entries.length then (0 : Int) else -1) = 0 ↔
      done.length = c₀.entries.length := by
    rw [(hsame c' hI').length_eq]
    split <;> omega
  refine ⟨_, c', hall, hI', hiff.trans hfinal.complete_iff, fun hcode i hi => ?_⟩
  have hperm : done.Perm (List.range c₀.entries.length) := by
    refine (List.subperm_of_subset (by simpa using hfinal.nodup) fun j hj => ?_).perm_of_length_le
      (by simp [hiff.mp hcode])
    exact List.mem_range.mpr (hfinal.lt j (by simpa using hj))
  refine hQ i (hperm.mem_iff.mpr (List.mem_range.mpr ?_)) hi
  by_contra hge
  rw [ScopeAt, List.getElem?_eq_none (Nat.le_of_not_lt hge)] at hi
  exact absurd hi (by simp)

end MiniBackend.Framework.Proofs.DiOrder
