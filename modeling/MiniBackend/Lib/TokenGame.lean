import Mathlib.Data.List.Forall2
import Mathlib.Data.List.Perm.Basic

/-!
# Token games

Tokens lie on places.  In a round every token does what there is to do at its place and is
replaced by tokens on the places that follow, none at the end.  When the game can be played to
the end, what is done in it does not depend on the order of the tokens: it is known in advance
up to a permutation.
-/

namespace MiniBackend.Lib.TokenGame

variable {P A : Type*} (own : P → List A) (next : P → Option (List P))

/-- A token on `p` and all that come from it are gone after at most `k` rounds, and do `l`. -/
def Future : Nat → P → List A → Prop
  | 0, _, _ => False
  | k + 1, p, l => ∃ ps, next p = some ps ∧
      ∃ ls, List.Forall₂ (Future k) ps ls ∧ (own p ++ ls.flatten).Perm l

def Futures (k : Nat) (m : List P) (l : List A) : Prop :=
  ∃ ls, List.Forall₂ (Future own next k) m ls ∧ ls.flatten.Perm l

variable {own next}

theorem future_succ {k : Nat} {p : P} {l : List A} :
    Future own next (k + 1) p l ↔
      ∃ ps, next p = some ps ∧ ∃ l', Futures own next k ps l' ∧ (own p ++ l').Perm l := by
  constructor
  · rintro ⟨ps, hnext, ls, hls, hl⟩
    exact ⟨ps, hnext, ls.flatten, ⟨ls, hls, .refl _⟩, hl⟩
  · rintro ⟨ps, hnext, l', ⟨ls, hls, hl'⟩, hl⟩
    exact ⟨ps, hnext, ls, hls, (hl'.append_left _).trans hl⟩

theorem futures_nil {k : Nat} {l : List A} : Futures own next k [] l ↔ l = [] := by
  constructor
  · rintro ⟨ls, hls, hl⟩
    rw [List.forall₂_nil_left_iff.mp hls] at hl
    exact hl.nil_eq.symm
  · intro h
    exact ⟨[], .nil, by rw [h, List.flatten_nil]⟩

theorem futures_singleton {k : Nat} {p : P} {l : List A} (h : Future own next k p l) :
    Futures own next k [p] l := by
  refine ⟨[l], .cons h .nil, ?_⟩
  rw [List.flatten_singleton]

theorem Futures.append {k : Nat} {m m' : List P} {l l' : List A} (h : Futures own next k m l)
    (h' : Futures own next k m' l') : Futures own next k (m ++ m') (l ++ l') := by
  obtain ⟨ls, hls, hl⟩ := h
  obtain ⟨ls', hls', hl'⟩ := h'
  refine ⟨ls ++ ls', List.rel_append hls hls', ?_⟩
  rw [List.flatten_append]
  exact hl.append hl'

theorem Futures.perm_left {k : Nat} {m m' : List P} {l : List A} (h : Futures own next k m l)
    (hm : m.Perm m') : Futures own next k m' l := by
  obtain ⟨ls, hls, hperm⟩ := h
  obtain ⟨ls', hls', hperm'⟩ := List.perm_comp_forall₂ hm.symm hls
  exact ⟨ls', hls', hperm'.flatten.trans hperm⟩

theorem Future.mono {k k' : Nat} (hk : k ≤ k') {p : P} {l : List A} (h : Future own next k p l) :
    Future own next k' p l := by
  induction k generalizing k' p l with
  | zero => exact absurd h id
  | succ k ih =>
      obtain ⟨k', rfl⟩ : ∃ n, k' = n + 1 := ⟨k' - 1, by omega⟩
      obtain ⟨ps, hnext, ls, hls, hl⟩ := h
      exact ⟨ps, hnext, ls, hls.imp fun _ _ => ih (Nat.le_of_succ_le_succ hk), hl⟩

theorem Futures.mono {k k' : Nat} (hk : k ≤ k') {m : List P} {l : List A}
    (h : Futures own next k m l) : Futures own next k' m l := by
  obtain ⟨ls, hls, hl⟩ := h
  exact ⟨ls, hls.imp fun _ _ => Future.mono hk, hl⟩

theorem futures_zero {m : List P} {l : List A} (h : Futures own next 0 m l) : m = [] := by
  obtain ⟨ls, hls, -⟩ := h
  cases hls with
  | nil => rfl
  | cons hfuture _ => exact absurd hfuture id

/-- A round: every token moves, and one round less is left. -/
theorem Futures.round {k : Nat} {m : List P} {l : List A} (h : Futures own next (k + 1) m l) :
    ∃ pss, List.Forall₂ (fun p ps => next p = some ps) m pss ∧
      ∃ l', Futures own next k pss.flatten l' ∧ (m.flatMap own ++ l').Perm l := by
  obtain ⟨ls, hls, hl⟩ := h
  induction hls generalizing l with
  | nil => exact ⟨[], .nil, [], futures_nil.mpr rfl, hl⟩
  | @cons p first m ls hfuture _ ih =>
      obtain ⟨ps, hnext, l', hps, hfirst⟩ := future_succ.mp hfuture
      obtain ⟨pss, hpss, rest, hrest, hperm⟩ := ih (List.Perm.refl _)
      refine ⟨ps :: pss, .cons hnext hpss, l' ++ rest, ?_, ?_⟩
      · rw [List.flatten_cons]
        exact hps.append hrest
      · rw [List.flatten_cons] at hl
        have hswap : (m.flatMap own ++ (l' ++ rest)).Perm (l' ++ (m.flatMap own ++ rest)) := by
          rw [← List.append_assoc, ← List.append_assoc]
          exact List.perm_append_comm.append_right rest
        rw [List.flatMap_cons, List.append_assoc]
        refine (hswap.append_left (own p)).trans ?_
        rw [← List.append_assoc]
        exact (hfirst.append hperm).trans hl

end MiniBackend.Lib.TokenGame
