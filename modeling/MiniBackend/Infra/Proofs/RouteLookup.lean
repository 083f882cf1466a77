import Mathlib.Data.Int.ConditionallyCompleteOrder
import MiniBackend.Infra.GatewayRouting
import MiniBackend.Lib.FirstMaximum

/-!
# Route lookup

The paths are compared over the length of the shorter one, so that a rule for a longer path than
the requested one matches too, and the priorities are compared with -1 first.
-/

namespace MiniBackend.Infra.Proofs.RouteLookup

open MiniBackend.Lib.CString MiniBackend.Lib.FirstMaximum MiniBackend.Infra.Gateway

variable {routes : List GwRouteRule} {method : GwHttpMethod} {path : CStr}

def Accepts (method : GwHttpMethod) (rule : GwRouteRule) : Prop :=
  rule.enabled = true ∧ (method = .any ∨ rule.method = .any ∨ rule.method = method)

def Candidate (method : GwHttpMethod) (path : CStr) (rule : GwRouteRule) : Prop :=
  Accepts method rule ∧ rule.path <+: path

def Longer (method : GwHttpMethod) (path : CStr) (rule : GwRouteRule) : Prop :=
  Accepts method rule ∧ path <+: rule.path ∧ path ≠ rule.path

/-- A candidate of the highest priority is found, and a null pointer means that there is none. -/
def FindsRoute (routes : List GwRouteRule) (method : GwHttpMethod) (path : CStr) : Prop :=
  (∀ rule, gwRouteFind routes method path = some rule → rule ∈ routes ∧
      Candidate method path rule ∧
      ∀ other ∈ routes, Candidate method path other → other.priority ≤ rule.priority) ∧
    (gwRouteFind routes method path = none ↔ ∀ rule ∈ routes, ¬Candidate method path rule)

/-- Every longer rule that is not negative has a candidate of a higher priority, or of the same in
front of it, and if there are candidates, then one is not negative. -/
def CandidatesLead (routes : List GwRouteRule) (method : GwHttpMethod) (path : CStr) : Prop :=
  (∀ (i : Nat) (rule : GwRouteRule), routes[i]? = some rule → Longer method path rule →
      0 ≤ rule.priority →
      ∃ (j : Nat) (other : GwRouteRule), routes[j]? = some other ∧ Candidate method path other ∧
        (rule.priority < other.priority ∨ other.priority = rule.priority ∧ j < i)) ∧
    ((∃ rule ∈ routes, Candidate method path rule) →
      ∃ rule ∈ routes, Candidate method path rule ∧ 0 ≤ rule.priority)

/-! ## The scan -/

def considered (method : GwHttpMethod) (path : CStr) (rule : GwRouteRule) : Bool :=
  rule.enabled && (method == .any || rule.method == .any || rule.method == method) &&
    strncmpEq rule.path path
      (if rule.path.length < path.length then rule.path.length else path.length) &&
    decide (-1 < rule.priority)

theorem considered_iff {rule : GwRouteRule} : considered method path rule = true ↔
    (Candidate method path rule ∨ Longer method path rule) ∧ 0 ≤ rule.priority := by
  unfold considered Candidate Longer Accepts
  simp only [Bool.and_eq_true, Bool.or_eq_true, strncmpEq_min_iff, decide_eq_true_eq, beq_iff_eq,
    or_assoc]
  constructor
  · rintro ⟨⟨haccepts, hprefix⟩, hpriority⟩
    refine ⟨?_, by omega⟩
    by_cases hsame : rule.path <+: path
    · exact Or.inl ⟨haccepts, hsame⟩
    · refine Or.inr ⟨haccepts, hprefix.resolve_left hsame, ?_⟩
      rintro rfl
      exact hsame (List.prefix_refl _)
  · rintro ⟨⟨haccepts, hprefix⟩ | ⟨haccepts, hprefix, -⟩, hpriority⟩
    · exact ⟨⟨haccepts, Or.inl hprefix⟩, by omega⟩
    · exact ⟨⟨haccepts, Or.inr hprefix⟩, by omega⟩

theorem scanRule_eq (scan : RouteScan) (rule : GwRouteRule) (hfloor : -1 ≤ scan.bestPrio) :
    scanRule method path scan rule =
      if considered method path rule = true ∧ scan.bestPrio < rule.priority then
        ⟨some rule, rule.priority⟩
      else scan := by
  have hmethod : (method != .any && rule.method != .any && rule.method != method) =
      !(method == .any || rule.method == .any || rule.method == method) := by
    simp [bne, Bool.not_or]
  have hpriority : (-1 < rule.priority ∧ scan.bestPrio < rule.priority) ↔
      scan.bestPrio < rule.priority := by omega
  unfold scanRule considered
  dsimp only
  rw [hmethod]
  generalize (method == .any || rule.method == .any || rule.method == method) = accepted
  generalize strncmpEq rule.path path _ = same
  cases rule.enabled <;> cases accepted <;> cases same <;> simp [hpriority]

theorem scan_eq (routes : List GwRouteRule) :
    routes.foldl (scanRule method path) ⟨none, -1⟩ =
      ⟨(routes.filter (considered method path)).argmax (·.priority),
        ((routes.filter (considered method path)).argmax (·.priority)).elim (-1) (·.priority)⟩ := by
  induction routes using List.reverseRecOn with
  | nil => rfl
  | append_singleton routes rule ih =>
      rw [List.foldl_append, ih, List.foldl_cons, List.foldl_nil, argmax_filter_concat]
      have hpositive (best : GwRouteRule)
          (hbest : (routes.filter (considered method path)).argmax (·.priority) = some best) :
          0 ≤ best.priority :=
        (considered_iff.mp (List.mem_filter.mp (List.argmax_mem hbest)).2).2
      cases hbest : (routes.filter (considered method path)).argmax (·.priority) with
      | none =>
          rw [scanRule_eq _ _ (by simp)]
          dsimp only [Option.elim_none]
          cases hconsidered : considered method path rule with
          | false => simp
          | true =>
              have hzero := (considered_iff.mp hconsidered).2
              have hhigher : -1 < rule.priority := by omega
              simp [hhigher]
      | some best =>
          have hzero := hpositive best hbest
          rw [scanRule_eq _ _ (by dsimp only [Option.elim_some]; omega)]
          dsimp only [Option.elim_some]
          cases considered method path rule with
          | false => simp
          | true =>
              by_cases hhigher : best.priority < rule.priority
              · simp [hhigher]
              · simp [hhigher]

theorem gwRouteFind_eq (routes : List GwRouteRule) (method : GwHttpMethod) (path : CStr) :
    gwRouteFind routes method path =
      (routes.filter (considered method path)).argmax (·.priority) := by
  rw [gwRouteFind, scan_eq]

/-! ## Soundness and completeness -/

theorem not_candidate_of_longer {rule : GwRouteRule} (hlonger : Longer method path rule) :
    ¬Candidate method path rule := by
  intro hcandidate
  apply hlonger.2.2
  exact hlonger.2.1.eq_of_length_le hcandidate.2.length_le

theorem considered_of_candidate {rule : GwRouteRule} (hcandidate : Candidate method path rule)
    (hzero : 0 ≤ rule.priority) : considered method path rule = true :=
  considered_iff.mpr ⟨Or.inl hcandidate, hzero⟩

theorem considered_of_found {rule : GwRouteRule}
    (hfound : gwRouteFind routes method path = some rule) :
    rule ∈ routes ∧ considered method path rule = true := by
  rw [gwRouteFind_eq] at hfound
  exact List.mem_filter.mp (List.argmax_mem hfound)

theorem found_candidate_iff :
    (∀ rule, gwRouteFind routes method path = some rule → Candidate method path rule) ↔
      ∀ (i : Nat) (rule : GwRouteRule), routes[i]? = some rule → Longer method path rule →
        0 ≤ rule.priority →
        ∃ (j : Nat) (other : GwRouteRule), routes[j]? = some other ∧ Candidate method path other ∧
          (rule.priority < other.priority ∨ other.priority = rule.priority ∧ j < i) := by
  have hgood : (∀ rule, gwRouteFind routes method path = some rule →
      Candidate method path rule) ↔
      ∀ rule, gwRouteFind routes method path = some rule →
        Candidate method path rule ∧ 0 ≤ rule.priority := by
    refine forall₂_congr fun rule hfound => ?_
    rw [and_iff_left (considered_iff.mp (considered_of_found hfound).2).2]
  rw [hgood, gwRouteFind_eq, argmax_good_iff fun rule h => considered_of_candidate h.1 h.2]
  refine forall₃_congr fun i rule _ => ?_
  rw [considered_iff]
  constructor
  · intro hlead hlonger hzero
    obtain ⟨j, other, hother, hcandidate, hahead⟩ := hlead ⟨Or.inr hlonger, hzero⟩
      fun h => not_candidate_of_longer hlonger h.1
    exact ⟨j, other, hother, hcandidate.1, hahead⟩
  · rintro hlead ⟨hkind, hzero⟩ hbad
    have hlonger := hkind.resolve_left fun hcandidate => hbad ⟨hcandidate, hzero⟩
    obtain ⟨j, other, hother, hcandidate, hahead⟩ := hlead hlonger hzero
    exact ⟨j, other, hother, ⟨hcandidate, by omega⟩, hahead⟩

theorem priority_le_of_found {rule other : GwRouteRule}
    (hfound : gwRouteFind routes method path = some rule) (hmem : other ∈ routes)
    (hcandidate : Candidate method path other) : other.priority ≤ rule.priority := by
  have hzero := (considered_iff.mp (considered_of_found hfound).2).2
  by_cases hpriority : 0 ≤ other.priority
  · rw [gwRouteFind_eq] at hfound
    apply List.le_of_mem_argmax _ hfound
    exact List.mem_filter.mpr ⟨hmem, considered_of_candidate hcandidate hpriority⟩
  · omega

theorem findsRoute_of_lead (hlead : CandidatesLead routes method path) :
    FindsRoute routes method path := by
  obtain ⟨hlonger, hsome⟩ := hlead
  have hcandidate := found_candidate_iff.mpr hlonger
  constructor
  · intro rule hfound
    exact ⟨(considered_of_found hfound).1, hcandidate rule hfound,
      fun other hmem => priority_le_of_found hfound hmem⟩
  · constructor
    · intro hnone rule hmem hrule
      obtain ⟨other, hother, hother', hzero⟩ := hsome ⟨rule, hmem, hrule⟩
      rw [gwRouteFind_eq, argmax_filter_eq_none_iff] at hnone
      have hskipped := hnone other hother
      rw [considered_of_candidate hother' hzero] at hskipped
      cases hskipped
    · intro hnone
      cases hfound : gwRouteFind routes method path with
      | none => rfl
      | some rule =>
          exact absurd (hcandidate rule hfound) (hnone rule (considered_of_found hfound).1)

theorem lead_of_findsRoute (hfinds : FindsRoute routes method path) :
    CandidatesLead routes method path := by
  obtain ⟨hfound, hnone⟩ := hfinds
  constructor
  · exact found_candidate_iff.mp fun rule hrule => (hfound rule hrule).2.1
  · rintro ⟨rule, hmem, hcandidate⟩
    cases hbest : gwRouteFind routes method path with
    | none => exact absurd hcandidate (hnone.mp hbest rule hmem)
    | some best =>
        obtain ⟨hbestMem, hconsidered⟩ := considered_of_found hbest
        exact ⟨best, hbestMem, (hfound best hbest).2.1, (considered_iff.mp hconsidered).2⟩

/-- The lookup is sound, complete and maximal exactly when candidates lead. -/
theorem findsRoute_iff_candidatesLead (routes : List GwRouteRule) (method : GwHttpMethod)
    (path : CStr) : FindsRoute routes method path ↔ CandidatesLead routes method path :=
  ⟨lead_of_findsRoute, findsRoute_of_lead⟩

/-- A request for a directory is routed by the rule for what is below it. -/
theorem longer_path_found :
    gwRouteFind [⟨.get, lit "/api/users", 10, true⟩] .get (lit "/api") =
        some ⟨.get, lit "/api/users", 10, true⟩ ∧
      ¬lit "/api/users" <+: lit "/api" := by
  decide

end MiniBackend.Infra.Proofs.RouteLookup
