import Mathlib.Data.List.Basic

/-!
# Patterns over words

A pattern is a list of words and wildcards.  One wildcard stands for one word, the other for
any number of words from a least number on.  Nothing here mentions a particular program.
-/

namespace MiniBackend.Lib.WordPattern

inductive PatternPart (α : Type) where
  | word (w : α)
  | one
  | many

variable {α : Type} {least : Nat} {pattern : List (PatternPart α)} {words : List α}

/-- The words match the pattern with at least `least` words for each `many`. -/
inductive Matches (least : Nat) : List (PatternPart α) → List α → Prop
  | nil : Matches least [] []
  | word (w : α) {pattern : List (PatternPart α)} {words : List α} :
      Matches least pattern words → Matches least (.word w :: pattern) (w :: words)
  | one (w : α) {pattern : List (PatternPart α)} {words : List α} :
      Matches least pattern words → Matches least (.one :: pattern) (w :: words)
  | many (taken : List α) {pattern : List (PatternPart α)} {words : List α} :
      least ≤ taken.length → Matches least pattern words →
        Matches least (.many :: pattern) (taken ++ words)

theorem Matches.mono {more : Nat} (hle : least ≤ more) (h : Matches more pattern words) :
    Matches least pattern words := by
  induction h with
  | nil => exact .nil
  | word w _ ih => exact .word w ih
  | one w _ ih => exact .one w ih
  | many taken htaken _ ih => exact .many taken (Nat.le_trans hle htaken) ih

theorem matches_nil_iff : Matches least [] words ↔ words = [] := by
  constructor
  · intro h
    cases h with
    | nil => rfl
  · intro h
    subst h
    exact .nil

theorem matches_word_iff {w v : α} :
    Matches least (.word w :: pattern) (v :: words) ↔ w = v ∧ Matches least pattern words := by
  constructor
  · intro h
    cases h with
    | word _ h => exact ⟨rfl, h⟩
  · intro h
    rw [h.1]
    exact .word v h.2

theorem matches_one_iff {v : α} :
    Matches least (.one :: pattern) (v :: words) ↔ Matches least pattern words := by
  constructor
  · intro h
    cases h with
    | one _ h => exact h
  · intro h
    exact .one v h

theorem matches_many_iff :
    Matches least (.many :: pattern) words ↔
      ∃ taken rest, words = taken ++ rest ∧ least ≤ taken.length ∧
        Matches least pattern rest := by
  constructor
  · intro h
    cases h with
    | many taken htaken h => exact ⟨taken, _, rfl, htaken, h⟩
  · intro h
    obtain ⟨taken, rest, rfl, htaken, h⟩ := h
    exact .many taken htaken h

/-- With at least one word for each wildcard, only the empty pattern matches no words. -/
theorem Matches.eq_nil (hpos : 0 < least) (h : Matches least pattern []) : pattern = [] := by
  cases pattern with
  | nil => rfl
  | cons part pattern =>
      cases part with
      | word w => cases h
      | one => cases h
      | many =>
          obtain ⟨taken, rest, hnil, htaken, _⟩ := matches_many_iff.mp h
          have htaken' : taken = [] := (List.append_eq_nil_iff.mp hnil.symm).1
          rw [htaken', List.length_nil] at htaken
          omega

end MiniBackend.Lib.WordPattern
