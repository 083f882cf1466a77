import Mathlib.Logic.Relation

/-!
# Runs of a deterministic machine

A machine is a step function on states; a run feeds it a list of operations.
`Always` says that every step meets a condition in the state where it is taken,
and `observe` accumulates ghost information along the run.  The rule at the end of
each section turns a step lemma into a lemma about whole runs.
-/

namespace MiniBackend.Lib.Runs

variable {σ ι γ : Type*} (step : σ → ι → σ)

def run (s : σ) (ops : List ι) : σ := ops.foldl step s

@[simp] theorem run_cons (s : σ) (op : ι) (ops : List ι) :
    run step s (op :: ops) = run step (step s op) ops := rfl

theorem run_append (s : σ) (ops ops' : List ι) :
    run step s (ops ++ ops') = run step (run step s ops) ops' :=
  List.foldl_append

def Always (p : σ → ι → Prop) : σ → List ι → Prop
  | _, [] => True
  | s, op :: ops => p s op ∧ Always p (step s op) ops

def decidableAlways (p : σ → ι → Prop) [∀ s op, Decidable (p s op)] :
    (s : σ) → (ops : List ι) → Decidable (Always step p s ops)
  | _, [] => .isTrue trivial
  | s, op :: ops =>
      have : Decidable (Always step p (step s op) ops) := decidableAlways p (step s op) ops
      inferInstanceAs (Decidable (p s op ∧ Always step p (step s op) ops))

instance (p : σ → ι → Prop) [∀ s op, Decidable (p s op)] (s : σ) (ops : List ι) :
    Decidable (Always step p s ops) := decidableAlways step p s ops

theorem always_of_forall {p : σ → ι → Prop} {q : ι → Prop} (hq : ∀ s op, q op → p s op)
    {ops : List ι} (h : ∀ op ∈ ops, q op) (s : σ) : Always step p s ops := by
  induction ops generalizing s with
  | nil => trivial
  | cons op ops ih =>
      exact ⟨hq s op (h op List.mem_cons_self),
        ih (fun op' hop' => h op' (List.mem_cons_of_mem op hop')) (step s op)⟩

theorem always_append {p : σ → ι → Prop} {s : σ} {ops ops' : List ι} :
    Always step p s (ops ++ ops') ↔ Always step p s ops ∧ Always step p (run step s ops) ops' := by
  induction ops generalizing s with
  | nil => simp [Always, run]
  | cons op ops ih => simp [Always, ih, and_assoc]

theorem Always.take {p : σ → ι → Prop} {s : σ} {ops : List ι} (h : Always step p s ops) (n : Nat) :
    Always step p s (ops.take n) := by
  rw [← List.take_append_drop n ops] at h
  exact ((always_append step).mp h).1

/-- What holds after every prefix of a run can be told from the steps, with the help of what every
step keeps. -/
theorem always_of_prefixes_keeps {I J : σ → Prop} {p : σ → ι → Prop}
    (hJ : ∀ s op, J s → J (step s op)) (hp : ∀ s op, J s → I (step s op) → p s op)
    {s : σ} {ops : List ι} (hs : J s) (h : ∀ n, I (run step s (ops.take n))) :
    Always step p s ops := by
  induction ops generalizing s with
  | nil => trivial
  | cons op ops ih => exact ⟨hp s op hs (h 1), ih (hJ s op hs) fun n => h (n + 1)⟩

theorem always_of_prefixes {I : σ → Prop} {p : σ → ι → Prop} (hp : ∀ s op, I (step s op) → p s op)
    {s : σ} {ops : List ι} (h : ∀ n, I (run step s (ops.take n))) : Always step p s ops :=
  always_of_prefixes_keeps (J := fun _ => True) step (fun _ _ _ => trivial) (fun s op _ => hp s op)
    trivial h

theorem Always.and_forall {p : σ → ι → Prop} {q : ι → Prop} {s : σ} {ops : List ι}
    (hp : Always step p s ops) (hq : ∀ op ∈ ops, q op) :
    Always step (fun s op => p s op ∧ q op) s ops := by
  induction ops generalizing s with
  | nil => trivial
  | cons op ops ih =>
      exact ⟨⟨hp.1, hq op List.mem_cons_self⟩,
        ih hp.2 fun op' hop' => hq op' (List.mem_cons_of_mem op hop')⟩

theorem Always.and {p q : σ → ι → Prop} {s : σ} {ops : List ι} (hp : Always step p s ops)
    (hq : Always step q s ops) : Always step (fun s op => p s op ∧ q s op) s ops := by
  induction ops generalizing s with
  | nil => trivial
  | cons op ops ih => exact ⟨⟨hp.1, hq.1⟩, ih hp.2 hq.2⟩

theorem run_invariant {I : σ → Prop} {p : σ → ι → Prop}
    (hstep : ∀ s op, I s → p s op → I (step s op)) {s : σ} {ops : List ι}
    (hs : I s) (hp : Always step p s ops) : I (run step s ops) := by
  induction ops generalizing s with
  | nil => exact hs
  | cons op ops ih => exact ih (hstep s op hs hp.1) hp.2

theorem run_keeps {I : σ → Prop} (hstep : ∀ s op, I s → I (step s op)) {s : σ} (hs : I s)
    (ops : List ι) : I (run step s ops) := by
  induction ops generalizing s with
  | nil => exact hs
  | cons op ops ih => exact ih (hstep s op hs)

theorem run_related {τ : Type*} {step' : τ → ι → τ} {R : σ → τ → Prop}
    (hstep : ∀ s t op, R s t → R (step s op) (step' t op)) {s : σ} {t : τ} (hst : R s t)
    (ops : List ι) : R (run step s ops) (run step' t ops) := by
  induction ops generalizing s t with
  | nil => exact hst
  | cons op ops ih => exact ih (hstep s t op hst)

theorem always_of_invariant {I : σ → Prop} {p q : σ → ι → Prop}
    (hstep : ∀ s op, I s → p s op → I (step s op)) (hq : ∀ s op, I s → p s op → q s op)
    {s : σ} {ops : List ι} (hs : I s) (hp : Always step p s ops) : Always step q s ops := by
  induction ops generalizing s with
  | nil => trivial
  | cons op ops ih => exact ⟨hq s op hs hp.1, ih (hstep s op hs hp.1) hp.2⟩

theorem run_comp {τ : Type*} {step' : τ → ι → τ} {f : σ → τ}
    (hf : ∀ s op, f (step s op) = step' (f s) op) (s : σ) (ops : List ι) :
    f (run step s ops) = run step' (f s) ops := by
  induction ops generalizing s with
  | nil => rfl
  | cons op ops ih => rw [run_cons, run_cons, ih, hf]

theorem always_comp {τ : Type*} {step' : τ → ι → τ} {f : σ → τ}
    (hf : ∀ s op, f (step s op) = step' (f s) op) {p : τ → ι → Prop} (s : σ) (ops : List ι) :
    Always step (fun s op => p (f s) op) s ops ↔ Always step' p (f s) ops := by
  induction ops generalizing s with
  | nil => exact Iff.rfl
  | cons op ops ih =>
      rw [Always, Always, ih, hf]

/-! ## Steps that may be undefined -/

section

variable (stepO : σ → ι → Option σ)

def runOption : σ → List ι → Option σ
  | s, [] => some s
  | s, op :: ops => (stepO s op).bind fun s' => runOption s' ops

def AlwaysOption (p : σ → ι → Prop) : σ → List ι → Prop
  | _, [] => True
  | s, op :: ops => p s op ∧ ∀ s' ∈ stepO s op, AlwaysOption p s' ops

def decidableAlwaysOption (p : σ → ι → Prop) [∀ s op, Decidable (p s op)] :
    (s : σ) → (ops : List ι) → Decidable (AlwaysOption stepO p s ops)
  | _, [] => .isTrue trivial
  | s, op :: ops =>
      have : ∀ s', Decidable (AlwaysOption stepO p s' ops) := fun s' =>
        decidableAlwaysOption p s' ops
      inferInstanceAs (Decidable (p s op ∧ ∀ s' ∈ stepO s op, AlwaysOption stepO p s' ops))

instance decidableAlwaysOptionOf (p : σ → ι → Prop) [∀ s op, Decidable (p s op)] (s : σ)
    (ops : List ι) : Decidable (AlwaysOption stepO p s ops) := decidableAlwaysOption stepO p s ops

theorem AlwaysOption.and_forall {p : σ → ι → Prop} {q : ι → Prop} {s : σ} {ops : List ι}
    (hp : AlwaysOption stepO p s ops) (hq : ∀ op ∈ ops, q op) :
    AlwaysOption stepO (fun s op => p s op ∧ q op) s ops := by
  induction ops generalizing s with
  | nil => trivial
  | cons op ops ih =>
      exact ⟨⟨hp.1, hq op List.mem_cons_self⟩, fun s' hs' =>
        ih (hp.2 s' hs') fun op' hop' => hq op' (List.mem_cons_of_mem op hop')⟩

theorem runOption_invariant {I : σ → Prop} {p : σ → ι → Prop}
    (hstep : ∀ s op, I s → p s op → ∃ s', stepO s op = some s' ∧ I s') {s : σ} {ops : List ι}
    (hs : I s) (hp : AlwaysOption stepO p s ops) :
    ∃ s', runOption stepO s ops = some s' ∧ I s' := by
  induction ops generalizing s with
  | nil => exact ⟨s, rfl, hs⟩
  | cons op ops ih =>
      obtain ⟨s', hdefined, hs'⟩ := hstep s op hs hp.1
      obtain ⟨last, hrun, hlast⟩ := ih hs' (hp.2 s' hdefined)
      refine ⟨last, ?_, hlast⟩
      rw [runOption, hdefined]
      exact hrun

theorem runOption_total (hstep : ∀ s op, ∃ s', stepO s op = some s') (s : σ) (ops : List ι) :
    ∃ s', runOption stepO s ops = some s' := by
  induction ops generalizing s with
  | nil => exact ⟨s, rfl⟩
  | cons op ops ih =>
      obtain ⟨s', hdefined⟩ := hstep s op
      rw [runOption, hdefined]
      exact ih s'

theorem alwaysOption_of_invariant {I : σ → Prop} {p q : σ → ι → Prop}
    (hstep : ∀ s op s', I s → p s op → stepO s op = some s' → I s')
    (hq : ∀ s op, I s → p s op → q s op) {s : σ} {ops : List ι} (hs : I s)
    (hp : AlwaysOption stepO p s ops) : AlwaysOption stepO q s ops := by
  induction ops generalizing s with
  | nil => trivial
  | cons op ops ih =>
      refine ⟨hq s op hs hp.1, ?_⟩
      intro s' hdefined
      exact ih (hstep s op s' hs hp.1 hdefined) (hp.2 s' hdefined)

/-- Two conditions that agree in the states that a run passes as long as the second one holds
are met by the same runs. -/
theorem alwaysOption_iff {I : σ → Prop} {p q r : σ → ι → Prop}
    (hiff : ∀ s op, I s → r s op → (p s op ↔ q s op))
    (hstep : ∀ s op s', I s → r s op → q s op → stepO s op = some s' → I s')
    {s : σ} {ops : List ι} (hs : I s) (hr : AlwaysOption stepO r s ops) :
    AlwaysOption stepO p s ops ↔ AlwaysOption stepO q s ops := by
  induction ops generalizing s with
  | nil => exact Iff.rfl
  | cons op ops ih =>
      have hop := hiff s op hs hr.1
      have hrest : q s op → ((∀ s' ∈ stepO s op, AlwaysOption stepO p s' ops) ↔
          ∀ s' ∈ stepO s op, AlwaysOption stepO q s' ops) := fun hq =>
        forall₂_congr fun s' hs' => ih (hstep s op s' hs hr.1 hq hs') (hr.2 s' hs')
      constructor
      · intro h
        have hq := hop.mp h.1
        exact ⟨hq, (hrest hq).mp h.2⟩
      · intro h
        exact ⟨hop.mpr h.1, (hrest h.1).mpr h.2⟩

theorem runOption_keeps {I : σ → Prop} {p : σ → ι → Prop}
    (hstep : ∀ s op s', I s → p s op → stepO s op = some s' → I s') {s s' : σ} {ops : List ι}
    (hs : I s) (hp : AlwaysOption stepO p s ops) (hrun : runOption stepO s ops = some s') :
    I s' := by
  induction ops generalizing s with
  | nil => exact Option.some.inj hrun ▸ hs
  | cons op ops ih =>
      obtain ⟨next, hdefined, hrest⟩ := Option.bind_eq_some_iff.mp hrun
      exact ih (hstep s op next hs hp.1 hdefined) (hp.2 next hdefined) hrest

theorem runOption_keeps_of_forall {I : σ → Prop}
    (hstep : ∀ s op s', I s → stepO s op = some s' → I s') {s s' : σ} {ops : List ι} (hs : I s)
    (hrun : runOption stepO s ops = some s') : I s' := by
  induction ops generalizing s with
  | nil => exact Option.some.inj hrun ▸ hs
  | cons op ops ih =>
      obtain ⟨next, hdefined, hrest⟩ := Option.bind_eq_some_iff.mp hrun
      exact ih (hstep s op next hs hdefined) hrest

end

/-! ## Ghost state -/

/-- Fold `g` over the run, with the state in which each operation is run. -/
def observe (g : γ → σ → ι → γ) : γ → σ → List ι → γ
  | acc, _, [] => acc
  | acc, s, op :: ops => observe g (g acc s op) (step s op) ops

/-- How many operations of the run meet `p` in the state in which they are run. -/
def countSteps (p : σ → ι → Bool) (s : σ) (ops : List ι) : Nat :=
  observe step (fun n s op => if p s op then n + 1 else n) 0 s ops

theorem observe_invariant {J : σ → γ → Prop} {g : γ → σ → ι → γ} {p : σ → ι → Prop}
    (hstep : ∀ s acc op, J s acc → p s op → J (step s op) (g acc s op))
    {s : σ} {acc : γ} {ops : List ι} (hs : J s acc) (hp : Always step p s ops) :
    J (run step s ops) (observe step g acc s ops) := by
  induction ops generalizing s acc with
  | nil => exact hs
  | cons op ops ih => exact ih (hstep s acc op hs hp.1) hp.2

/-! ## Counting steps -/

theorem countSteps_cons (p : σ → ι → Bool) (s : σ) (op : ι) (ops : List ι) :
    countSteps step p s (op :: ops) =
      (if p s op then 1 else 0) + countSteps step p (step s op) ops := by
  have hshift : ∀ (ops : List ι) (s : σ) (n : Nat),
      observe step (fun n s op => if p s op then n + 1 else n) n s ops =
        n + countSteps step p s ops := by
    intro ops
    induction ops with
    | nil => intro s n; rfl
    | cons op ops ih =>
        intro s n
        simp only [countSteps, observe]
        rw [ih, ih]
        split <;> omega
  rw [countSteps, observe, hshift]

/-- Conservation: a quantity that goes up by one at the steps in `inc` and down by
one at the steps in `dec` is their difference along every run. -/
theorem run_balance {f : σ → Nat} {inc dec : σ → ι → Bool} {p : σ → ι → Prop}
    (hstep : ∀ s op, p s op →
      f (step s op) + (if dec s op then 1 else 0) = f s + (if inc s op then 1 else 0))
    {s : σ} {ops : List ι} (hp : Always step p s ops) :
    f (run step s ops) + countSteps step dec s ops = f s + countSteps step inc s ops := by
  induction ops generalizing s with
  | nil => rfl
  | cons op ops ih =>
      have h := ih hp.2
      have hop := hstep s op hp.1
      rw [run_cons, countSteps_cons, countSteps_cons]
      omega

end MiniBackend.Lib.Runs
