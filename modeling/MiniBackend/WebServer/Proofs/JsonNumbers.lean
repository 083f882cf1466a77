import MiniBackend.Lib.Rfc8259
import MiniBackend.WebServer.JsonHelper

/-!
# Number tokens

The scanner of numbers reads a number of the grammar, and reads on as long as a number can go
on.
-/

namespace MiniBackend.WebServer.Proofs.JsonNumbers

open MiniBackend.Lib.CString MiniBackend.Lib.Rfc8259 MiniBackend.WebServer.Json

/-! ## Runs of digits -/

def NoDigit (next : Option UInt8) : Prop := ∀ b ∈ next, isDigit b = false

theorem digitsEnd_eq_some_iff {s rest : CStr} :
    digitsEnd s = some rest ↔
      ∃ ds, s = ds ++ rest ∧ ds ≠ [] ∧ Digits ds ∧ NoDigit rest.head? := by
  cases s with
  | nil => simp [digitsEnd]
  | cons d s =>
      rw [digitsEnd]
      constructor
      · intro h
        split at h
        next hd =>
          rw [Option.some.injEq] at h
          refine ⟨d :: s.takeWhile isDigit, ?_, List.cons_ne_nil _ _, ?_, ?_⟩
          · rw [← h, List.cons_append, List.takeWhile_append_dropWhile]
          · intro b hb
            rcases List.mem_cons.mp hb with rfl | hb
            · exact hd
            · exact List.mem_takeWhile_imp hb
          · intro b hb
            have hhead := List.head?_dropWhile_not isDigit s
            rw [h, hb] at hhead
            exact hhead
        next => cases h
      · rintro ⟨ds, hs, hne, hds, hrest⟩
        cases ds with
        | nil => exact absurd rfl hne
        | cons b ds =>
            rw [List.cons_append, List.cons.injEq] at hs
            obtain ⟨rfl, rfl⟩ := hs
            rw [if_pos (hds d List.mem_cons_self), Option.some.injEq,
              List.dropWhile_append_of_pos fun b hb => hds b (List.mem_cons_of_mem d hb)]
            cases rest with
            | nil => rfl
            | cons b rest => rw [List.dropWhile_cons_of_neg (by simp [hrest b rfl])]

/-! ## The parts of a number

Each part is as long as it can be, which the next byte shows. -/

def AfterInteger (i : CStr) (next : Option UInt8) : Prop := i = [48] ∨ NoDigit next

def AfterFraction (f : CStr) (next : Option UInt8) : Prop :=
  (f = [] → next ≠ some 46) ∧ (f ≠ [] → NoDigit next)

def AfterExponent (e : CStr) (next : Option UInt8) : Prop :=
  (e = [] → next ≠ some 101 ∧ next ≠ some 69) ∧ (e ≠ [] → NoDigit next)

theorem integerEnd_eq_some_iff {s rest : CStr} :
    integerEnd s = some rest ↔
      ∃ i, s = i ++ rest ∧ IntegerPart i ∧ AfterInteger i rest.head? := by
  constructor
  · intro h
    unfold integerEnd at h
    split at h
    next => cases h
    next d t =>
      split at h
      next hd =>
        cases h
        exact ⟨[48], by rw [hd]; rfl, .zero, Or.inl rfl⟩
      next hd =>
        obtain ⟨ds, hs, hne, hds, hrest⟩ := digitsEnd_eq_some_iff.mp h
        cases ds with
        | nil => exact absurd rfl hne
        | cons b ds =>
            have hb : b = d := (List.cons.inj hs).1.symm
            refine ⟨b :: ds, hs, .digits (hds b List.mem_cons_self) (hb ▸ hd) ?_, Or.inr hrest⟩
            intro c hc
            exact hds c (List.mem_cons_of_mem b hc)
  · rintro ⟨i, rfl, hi, hafter⟩
    cases hi with
    | zero => rfl
    | @digits d ds hd hne hds =>
        rw [List.cons_append, integerEnd, if_neg hne, ← List.cons_append]
        apply digitsEnd_eq_some_iff.mpr
        refine ⟨d :: ds, rfl, List.cons_ne_nil _ _, ?_, ?_⟩
        · exact List.forall_mem_cons.mpr ⟨hd, hds⟩
        · rcases hafter with hzero | hrest
          · exact absurd (List.cons.inj hzero).1 hne
          · exact hrest

theorem fractionEnd_eq_some_iff {s rest : CStr} :
    fractionEnd s = some rest ↔
      ∃ f, s = f ++ rest ∧ FractionPart f ∧ AfterFraction f rest.head? := by
  constructor
  · intro h
    unfold fractionEnd at h
    split at h
    next =>
      cases h
      exact ⟨[], rfl, .none, fun _ => nofun, fun hne => absurd rfl hne⟩
    next c t =>
      split at h
      next hc =>
        obtain ⟨ds, hs, hne, hds, hrest⟩ := digitsEnd_eq_some_iff.mp h
        refine ⟨46 :: ds, by rw [hc, hs]; rfl, .digits hne hds, nofun, fun _ => hrest⟩
      next hc =>
        cases h
        refine ⟨[], rfl, .none, ?_, fun hne => absurd rfl hne⟩
        intro _ hhead
        exact hc (Option.some.inj hhead)
  · rintro ⟨f, rfl, hf, hafter⟩
    cases hf with
    | none =>
        cases rest with
        | nil => rfl
        | cons c rest =>
            rw [List.nil_append, fractionEnd, if_neg]
            rintro rfl
            exact hafter.1 rfl rfl
    | @digits ds hne hds =>
        rw [List.cons_append, fractionEnd, if_pos rfl]
        exact digitsEnd_eq_some_iff.mpr ⟨ds, rfl, hne, hds, hafter.2 (List.cons_ne_nil _ _)⟩

theorem exponentEnd_eq_some_iff {s rest : CStr} :
    exponentEnd s = some rest ↔
      ∃ e, s = e ++ rest ∧ ExponentPart e ∧ AfterExponent e rest.head? := by
  constructor
  · intro h
    unfold exponentEnd at h
    split at h
    next =>
      cases h
      exact ⟨[], rfl, .none, fun _ => ⟨nofun, nofun⟩, fun hne => absurd rfl hne⟩
    next x t =>
      split at h
      next hx =>
        split at h
        next => cases h
        next c digits =>
          split at h
          next hc =>
            obtain ⟨ds, hs, hne, hds, hrest⟩ := digitsEnd_eq_some_iff.mp h
            exact ⟨x :: c :: ds, by rw [hs]; rfl, .signed hx hc hne hds, nofun, fun _ => hrest⟩
          next =>
            obtain ⟨ds, hs, hne, hds, hrest⟩ := digitsEnd_eq_some_iff.mp h
            exact ⟨x :: ds, by rw [hs]; rfl, .unsigned hx hne hds, nofun, fun _ => hrest⟩
      next hx =>
        cases h
        refine ⟨[], rfl, .none, ?_, fun hne => absurd rfl hne⟩
        intro _
        constructor
        · intro hhead
          exact hx (Or.inl (Option.some.inj hhead))
        · intro hhead
          exact hx (Or.inr (Option.some.inj hhead))
  · rintro ⟨e, rfl, he, hafter⟩
    cases he with
    | none =>
        cases rest with
        | nil => rfl
        | cons c rest =>
            rw [List.nil_append, exponentEnd.eq_def]
            dsimp only
            rw [if_neg]
            rintro (rfl | rfl)
            · exact (hafter.1 rfl).1 rfl
            · exact (hafter.1 rfl).2 rfl
    | @unsigned x ds hx hne hds =>
        cases ds with
        | nil => exact absurd rfl hne
        | cons d ds =>
            have hsign : ¬ (d = 43 ∨ d = 45) := by
              have hd := hds d List.mem_cons_self
              rintro (rfl | rfl)
              · exact absurd hd (by decide)
              · exact absurd hd (by decide)
            rw [List.cons_append, List.cons_append, exponentEnd, if_pos hx,
              if_neg hsign, ← List.cons_append]
            exact digitsEnd_eq_some_iff.mpr
              ⟨d :: ds, rfl, hne, hds, hafter.2 (List.cons_ne_nil _ _)⟩
    | @signed x sign ds hx hsign hne hds =>
        rw [List.cons_append, List.cons_append, exponentEnd, if_pos hx, if_pos hsign]
        exact digitsEnd_eq_some_iff.mpr ⟨ds, rfl, hne, hds, hafter.2 (List.cons_ne_nil _ _)⟩

/-! ## Whole numbers -/

def Sign (sign : CStr) : Prop := sign = [] ∨ sign = [45]

/-- The parts of a number, and the byte behind it. -/
structure Parts (sign i f e : CStr) (next : Option UInt8) : Prop where
  sign : Sign sign
  integer : IntegerPart i
  fraction : FractionPart f
  exponent : ExponentPart e
  afterInteger : AfterInteger i ((f ++ e).head?.or next)
  afterFraction : AfterFraction f (e.head?.or next)
  afterExponent : AfterExponent e next

theorem isNumber_of_parts {sign i f e : CStr} (hsign : Sign sign) (hi : IntegerPart i)
    (hf : FractionPart f) (he : ExponentPart e) : IsNumber (sign ++ (i ++ (f ++ e))) := by
  rcases hsign with rfl | rfl
  · have hnumber : IsNumber (i ++ (f ++ e)) := .positive hi hf he
    exact hnumber
  · have hnumber : IsNumber (45 :: (i ++ (f ++ e))) := .negative hi hf he
    exact hnumber

theorem parts_of_isNumber {s : CStr} (h : IsNumber s) :
    ∃ sign i f e, s = sign ++ (i ++ (f ++ e)) ∧ Sign sign ∧ IntegerPart i ∧ FractionPart f ∧
      ExponentPart e := by
  cases h with
  | positive hi hf he => exact ⟨[], _, _, _, rfl, Or.inl rfl, hi, hf, he⟩
  | negative hi hf he => exact ⟨[45], _, _, _, rfl, Or.inr rfl, hi, hf, he⟩

theorem dropSign_sign {sign i rest : CStr} (hsign : Sign sign) (hi : IntegerPart i) :
    dropSign (sign ++ (i ++ rest)) = i ++ rest := by
  rcases hsign with rfl | rfl
  · cases hi with
    | zero => rfl
    | digits hd _ _ =>
        rw [List.nil_append, List.cons_append, dropSign, if_neg]
        rintro rfl
        exact absurd hd (by decide)
  · rfl

theorem dropSign_split (s : CStr) : ∃ sign, s = sign ++ dropSign s ∧ Sign sign := by
  cases s with
  | nil => exact ⟨[], rfl, Or.inl rfl⟩
  | cons c s =>
      rw [dropSign]
      split
      next hc => exact ⟨[45], by rw [hc]; rfl, Or.inr rfl⟩
      next => exact ⟨[], rfl, Or.inl rfl⟩

theorem numberEnd_eq_some_iff {s rest : CStr} :
    numberEnd s = some rest ↔
      ∃ sign i f e, s = sign ++ (i ++ (f ++ (e ++ rest))) ∧ Parts sign i f e rest.head? := by
  constructor
  · intro h
    obtain ⟨s₂, h₂, hexponent⟩ := Option.bind_eq_some_iff.mp h
    obtain ⟨s₁, hinteger, hfraction⟩ := Option.bind_eq_some_iff.mp h₂
    obtain ⟨sign, hs, hsign⟩ := dropSign_split s
    obtain ⟨i, hs₁, hi, hafter⟩ := integerEnd_eq_some_iff.mp hinteger
    obtain ⟨f, rfl, hf, hafter₁⟩ := fractionEnd_eq_some_iff.mp hfraction
    obtain ⟨e, rfl, he, hafter₂⟩ := exponentEnd_eq_some_iff.mp hexponent
    refine ⟨sign, i, f, e, by rw [← hs₁, ← hs], hsign, hi, hf, he, ?_, ?_, hafter₂⟩
    · rwa [← List.append_assoc, List.head?_append] at hafter
    · rwa [List.head?_append] at hafter₁
  · rintro ⟨sign, i, f, e, rfl, hparts⟩
    have hinteger : integerEnd (i ++ (f ++ (e ++ rest))) = some (f ++ (e ++ rest)) := by
      apply integerEnd_eq_some_iff.mpr
      refine ⟨i, rfl, hparts.integer, ?_⟩
      rw [← List.append_assoc, List.head?_append]
      exact hparts.afterInteger
    have hfraction : fractionEnd (f ++ (e ++ rest)) = some (e ++ rest) := by
      apply fractionEnd_eq_some_iff.mpr
      refine ⟨f, rfl, hparts.fraction, ?_⟩
      rw [List.head?_append]
      exact hparts.afterFraction
    have hexponent : exponentEnd (e ++ rest) = some rest :=
      exponentEnd_eq_some_iff.mpr ⟨e, rfl, hparts.exponent, hparts.afterExponent⟩
    rw [numberEnd, dropSign_sign hparts.sign hparts.integer, hinteger, Option.bind_some,
      hfraction, Option.bind_some, hexponent]

theorem digits_singleton {b : UInt8} (hb : isDigit b = true) : Digits [b] :=
  List.forall_mem_singleton.mpr hb

theorem digits_concat {ds : CStr} {b : UInt8} (hds : Digits ds) (hb : isDigit b = true) :
    Digits (ds ++ [b]) :=
  List.forall_mem_append.mpr ⟨hds, digits_singleton hb⟩

theorem exponentNil_of_head {e : CStr} {next : Option UInt8} {b : UInt8}
    (he : ExponentPart e) (hb : b ∈ e.head?.or next) (hletter : b ≠ 101 ∧ b ≠ 69) :
    e = [] ∧ b ∈ next := by
  cases he with
  | none => exact ⟨rfl, hb⟩
  | unsigned hx _ _ =>
      cases hb
      rcases hx with hx | hx
      · exact absurd hx hletter.1
      · exact absurd hx hletter.2
  | signed hx _ _ _ =>
      cases hb
      rcases hx with hx | hx
      · exact absurd hx hletter.1
      · exact absurd hx hletter.2

theorem not_letter_of_isDigit {b : UInt8} (hb : isDigit b = true) : b ≠ 101 ∧ b ≠ 69 := by
  constructor
  · rintro rfl
    exact absurd hb (by decide)
  · rintro rfl
    exact absurd hb (by decide)

/-- A byte is behind a number when no number goes on with it: one more digit continues the
last part. -/
theorem parts_of_stops {sign i f e : CStr} {next : Option UInt8} (hsign : Sign sign)
    (hi : IntegerPart i) (hf : FractionPart f) (he : ExponentPart e)
    (hstop : ∀ b ∈ next, ¬ ∃ s, IsNumber (sign ++ (i ++ (f ++ e)) ++ b :: s)) :
    Parts sign i f e next := by
  have hzero : Digits [48] := digits_singleton (by decide)
  have hlonger : ∀ {b : UInt8} {i' f' e' : CStr} (s : CStr), b ∈ next → IntegerPart i' →
      FractionPart f' → ExponentPart e' → i' ++ (f' ++ e') = i ++ (f ++ e) ++ b :: s →
      False := by
    intro b i' f' e' s hb hi' hf' he' heq
    apply hstop b hb
    refine ⟨s, ?_⟩
    rw [List.append_assoc, ← heq]
    exact isNumber_of_parts hsign hi' hf' he'
  refine ⟨hsign, hi, hf, he, ?_, ⟨?_, ?_⟩, ?_, ?_⟩
  · cases hi with
    | zero => exact Or.inl rfl
    | digits hd hne hds =>
        refine Or.inr ?_
        intro b hb
        by_contra hdigit
        rw [Bool.not_eq_false] at hdigit
        cases hf with
        | digits _ _ =>
            cases hb
            exact absurd hdigit (by decide)
        | none =>
            obtain ⟨rfl, hnext⟩ := exponentNil_of_head he hb (not_letter_of_isDigit hdigit)
            exact hlonger [] hnext (.digits hd hne (digits_concat hds hdigit)) .none .none (by simp)
  · intro hnil hnext
    subst hnil
    obtain ⟨rfl, hnext⟩ := exponentNil_of_head he hnext (by decide)
    exact hlonger [48] hnext hi (.digits (List.cons_ne_nil 48 []) hzero) .none (by simp)
  · intro hne b hb
    by_contra hdigit
    rw [Bool.not_eq_false] at hdigit
    obtain ⟨rfl, hnext⟩ := exponentNil_of_head he hb (not_letter_of_isDigit hdigit)
    cases hf with
    | none => exact absurd rfl hne
    | @digits ds _ hds =>
        exact hlonger [] hnext hi (.digits (List.concat_ne_nil b ds) (digits_concat hds hdigit))
          .none (by simp)
  · intro hnil
    subst hnil
    have hletter : ∀ x : UInt8, x = 101 ∨ x = 69 → next ≠ some x := by
      intro x hx hnext
      exact hlonger [48] hnext hi hf (.unsigned hx (List.cons_ne_nil 48 []) hzero) (by simp)
    exact ⟨hletter 101 (Or.inl rfl), hletter 69 (Or.inr rfl)⟩
  · intro hne b hb
    by_contra hdigit
    rw [Bool.not_eq_false] at hdigit
    cases he with
    | none => exact absurd rfl hne
    | @unsigned _ ds hx _ hds =>
        exact hlonger [] hb hi hf
          (.unsigned hx (List.concat_ne_nil b ds) (digits_concat hds hdigit)) (by simp)
    | @signed _ _ ds hx hs _ hds =>
        exact hlonger [] hb hi hf
          (.signed hx hs (List.concat_ne_nil b ds) (digits_concat hds hdigit)) (by simp)

/-- The scanner reads the number at the front of the input, up to where no number goes on. -/
theorem numberEnd_eq_some_iff_stops {s rest : CStr} :
    numberEnd s = some rest ↔ ∃ v, s = v ++ rest ∧ IsNumber v ∧ Stops v rest := by
  constructor
  · intro h
    obtain ⟨sign, i, f, e, hs, hparts⟩ := numberEnd_eq_some_iff.mp h
    have hnumber := isNumber_of_parts hparts.sign hparts.integer hparts.fraction hparts.exponent
    refine ⟨sign ++ (i ++ (f ++ e)), by simp [hs], hnumber, ?_⟩
    intro b hb hgoes
    rcases hgoes with ⟨_, t, ht⟩ | ⟨hkw, _⟩
    · -- the scanner would read the longer number and this one
      obtain ⟨sign', i', f', e', hs', hsign', hi', hf', he'⟩ := parts_of_isNumber ht
      have hlong : numberEnd (sign' ++ (i' ++ (f' ++ e'))) = some [] := by
        apply numberEnd_eq_some_iff.mpr
        refine ⟨sign', i', f', e', by simp, parts_of_stops hsign' hi' hf' he' nofun⟩
      have hshort : numberEnd (sign' ++ (i' ++ (f' ++ e'))) = some (b :: t) := by
        apply numberEnd_eq_some_iff.mpr
        refine ⟨sign, i, f, e, by rw [← hs']; simp, ?_⟩
        rw [List.head?_cons, ← hb]
        exact hparts
      rw [hlong] at hshort
      cases hshort
    · obtain ⟨c, t, hc, hbyte⟩ := hnumber.head
      rw [hc] at hkw
      rcases hkw with hkw | hkw | hkw
      all_goals
        cases hkw
        rcases hbyte with hbyte | hbyte
        · exact absurd hbyte (by decide)
        · exact absurd hbyte (by decide)
  · rintro ⟨v, rfl, hnumber, hstop⟩
    obtain ⟨sign, i, f, e, rfl, hsign, hi, hf, he⟩ := parts_of_isNumber hnumber
    apply numberEnd_eq_some_iff.mpr
    refine ⟨sign, i, f, e, by simp, parts_of_stops hsign hi hf he ?_⟩
    intro b hb hlong
    exact hstop b hb (Or.inl ⟨hnumber, hlong⟩)

end MiniBackend.WebServer.Proofs.JsonNumbers
