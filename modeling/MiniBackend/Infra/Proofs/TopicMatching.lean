import MiniBackend.Infra.MessageQueue
import MiniBackend.Lib.WordPattern

/-!
# Topic patterns by characters and by words

`mq_topic_match` goes over characters.  On the text of a pattern and of a routing key it
agrees with the relation on their words in which `#` stands for at least one word: the
separator before or after a `#` is only consumed together with a word.  The pattern `#`
alone has no separator and also matches the empty key.
-/

namespace MiniBackend.Infra.Proofs.TopicMatching

open MiniBackend.Infra.MessageQueue
open MiniBackend.Lib.WordPattern

abbrev Pattern := List (PatternPart (List UInt8))

def partText : PatternPart (List UInt8) → List UInt8
  | .word w => w
  | .one => [starMark]
  | .many => [hashMark]

def dotted : List (List UInt8) → List UInt8
  | [] => []
  | w :: words => dot :: (w ++ dotted words)

/-- The words with a `'.'` between them. -/
def joined : List (List UInt8) → List UInt8
  | [] => []
  | w :: words => w ++ dotted words

def patternText (pattern : Pattern) : List UInt8 :=
  joined (pattern.map partText)

/-- The words of a pattern contain no separator and no wildcard.  The list of one empty word
has the text of the empty list, which is the list meant by it. -/
structure WellFormed (pattern : Pattern) : Prop where
  noDot : ∀ w, .word w ∈ pattern → dot ∉ w
  noStar : ∀ w, .word w ∈ pattern → starMark ∉ w
  noHash : ∀ w, .word w ∈ pattern → hashMark ∉ w
  notBlank : pattern ≠ [.word []]

def IsRoutingKey (key : List (List UInt8)) : Prop :=
  ∀ w ∈ key, w ≠ [] ∧ dot ∉ w

/-! ## Single words -/

def AtSeparator (text : List UInt8) : Prop :=
  text = [] ∨ ∃ rest, text = dot :: rest

theorem atSeparator_dotted (words : List (List UInt8)) : AtSeparator (dotted words) := by
  cases words with
  | nil => exact Or.inl rfl
  | cons w words => exact Or.inr ⟨_, rfl⟩

attribute [local simp] mqTopicMatch in
theorem mqTopicMatch_nil_right {c : UInt8} {pattern : List UInt8} (hc : c ≠ hashMark) :
    mqTopicMatch (c :: pattern) [] = false := by
  simp [hc]

theorem mqTopicMatch_plain {p c : UInt8} {pattern key : List UInt8} (hhash : p ≠ hashMark)
    (hstar : p ≠ starMark) :
    mqTopicMatch (p :: pattern) (c :: key) = (decide (p = c) && mqTopicMatch pattern key) := by
  rw [mqTopicMatch, if_neg hhash, if_neg hstar]
  by_cases h : p = c
  · simp [h]
  · simp [h]

theorem mqTopicMatch_inside {pattern key : List UInt8} {c : UInt8} (hsep : AtSeparator pattern)
    (hc : c ≠ dot) : mqTopicMatch pattern (c :: key) = false := by
  rcases hsep with rfl | ⟨rest, rfl⟩
  · simp [mqTopicMatch]
  · rw [mqTopicMatch_plain (by decide) (by decide)]
    simp [Ne.symm hc]

theorem mqTopicMatch_word {pattern key : List UInt8} (hpattern : AtSeparator pattern)
    (hkey : AtSeparator key) (v : List UInt8) :
    ∀ w, dot ∉ v → starMark ∉ v → hashMark ∉ v → dot ∉ w →
      mqTopicMatch (v ++ pattern) (w ++ key) = (decide (v = w) && mqTopicMatch pattern key) := by
  induction v with
  | nil =>
      intro w _ _ _ hw
      cases w with
      | nil => simp
      | cons c w =>
          have hc : c ≠ dot := fun h => hw (h ▸ List.mem_cons_self)
          simp [mqTopicMatch_inside hpattern hc]
  | cons a v ih =>
      intro w hdot hstar hhash hw
      have ha : a ≠ hashMark := fun h => hhash (h ▸ List.mem_cons_self)
      have ha' : a ≠ starMark := fun h => hstar (h ▸ List.mem_cons_self)
      have ha'' : a ≠ dot := fun h => hdot (h ▸ List.mem_cons_self)
      cases w with
      | nil =>
          rcases hkey with rfl | ⟨rest, rfl⟩
          · simp [mqTopicMatch_nil_right ha]
          · simp [mqTopicMatch_plain ha ha', ha'']
      | cons c w =>
          have hrest := ih w (fun h => hdot (List.mem_cons_of_mem a h))
            (fun h => hstar (List.mem_cons_of_mem a h)) (fun h => hhash (List.mem_cons_of_mem a h))
            (fun h => hw (List.mem_cons_of_mem c h))
          rw [List.cons_append, List.cons_append, mqTopicMatch_plain ha ha', hrest]
          simp [Bool.and_assoc]

theorem dropWhile_word {key : List UInt8} (hkey : AtSeparator key) (w : List UInt8)
    (hw : dot ∉ w) : (w ++ key).dropWhile (· ≠ dot) = key := by
  induction w with
  | nil =>
      rcases hkey with rfl | ⟨rest, rfl⟩
      · rfl
      · simp
  | cons c w ih =>
      have hc : c ≠ dot := fun h => hw (h ▸ List.mem_cons_self)
      have hrest := ih (fun h => hw (List.mem_cons_of_mem c h))
      simpa [hc] using hrest

theorem mqTopicMatch_star {pattern key w : List UInt8} (hpattern : AtSeparator pattern)
    (hkey : AtSeparator key) (hne : w ≠ []) (hw : dot ∉ w) :
    mqTopicMatch (starMark :: pattern) (w ++ key) = mqTopicMatch pattern key := by
  obtain ⟨c, w', rfl⟩ := List.exists_cons_of_ne_nil hne
  have hdrop := dropWhile_word hkey (c :: w') hw
  rw [List.cons_append] at hdrop
  have hhash : starMark ≠ hashMark := by decide
  rw [List.cons_append, mqTopicMatch, if_neg hhash, if_pos rfl, hdrop]
  rcases hpattern with rfl | ⟨rest, rfl⟩
  · cases key <;> rfl
  · rcases hkey with rfl | ⟨rest', rfl⟩
    · rfl
    · simp [mqTopicMatch_plain (show dot ≠ hashMark by decide) (show dot ≠ starMark by decide)]

/-! ## Hashes -/

theorem tryEach_skip {topicMatch : List UInt8 → Bool}
    (hinside : ∀ c key, c ≠ dot → topicMatch (c :: key) = false) (key w : List UInt8)
    (hw : dot ∉ w) : tryEach topicMatch (w ++ key) = tryEach topicMatch key := by
  induction w with
  | nil => rfl
  | cons c w ih =>
      have hc : c ≠ dot := fun h => hw (h ▸ List.mem_cons_self)
      rw [List.cons_append, tryEach, hinside c _ hc, if_neg Bool.false_ne_true]
      exact ih (fun h => hw (List.mem_cons_of_mem c h))

theorem tryEach_dotted {topicMatch : List UInt8 → Bool}
    (hinside : ∀ c key, c ≠ dot → topicMatch (c :: key) = false)
    (words : List (List UInt8)) (hwords : ∀ w ∈ words, dot ∉ w) :
    tryEach topicMatch (dotted words) = true ↔
      ∃ taken rest, words = taken ++ rest ∧ rest ≠ [] ∧ topicMatch (dotted rest) = true := by
  induction words with
  | nil =>
      constructor
      · intro h
        contradiction
      · intro h
        obtain ⟨taken, rest, hnil, hne, _⟩ := h
        exact absurd (List.append_eq_nil_iff.mp hnil.symm).2 hne
  | cons w words ih =>
      have hw := hwords w List.mem_cons_self
      have ih := ih fun v hv => hwords v (List.mem_cons_of_mem w hv)
      have hstep : tryEach topicMatch (dotted (w :: words)) =
          (topicMatch (dotted (w :: words)) || tryEach topicMatch (dotted words)) := by
        rw [dotted, tryEach, tryEach_skip hinside _ w hw]
        cases topicMatch (dot :: (w ++ dotted words)) <;> rfl
      rw [hstep, Bool.or_eq_true, ih]
      constructor
      · intro h
        rcases h with hhere | ⟨taken, rest, rfl, hne, hthere⟩
        · exact ⟨[], w :: words, rfl, List.cons_ne_nil _ _, hhere⟩
        · exact ⟨w :: taken, rest, rfl, hne, hthere⟩
      · intro h
        obtain ⟨taken, rest, heq, hne, hmatch⟩ := h
        cases taken with
        | nil => exact Or.inl (heq ▸ hmatch)
        | cons v taken =>
            rw [List.cons_append, List.cons.injEq] at heq
            exact Or.inr ⟨taken, rest, heq.2, hne, hmatch⟩

/-! ## Patterns -/

theorem mqTopicMatch_part {part : PatternPart (List UInt8)} {pattern : Pattern}
    (hpart : ∀ w, part = .word w → dot ∉ w ∧ starMark ∉ w ∧ hashMark ∉ w)
    (ih : ∀ key, IsRoutingKey key →
      (mqTopicMatch (dotted (pattern.map partText)) (dotted key) = true ↔
        Matches 1 pattern key))
    {w : List UInt8} {key : List (List UInt8)} (hkey : IsRoutingKey (w :: key)) :
    mqTopicMatch (joined ((part :: pattern).map partText)) (joined (w :: key)) = true ↔
      Matches 1 (part :: pattern) (w :: key) := by
  have hw := hkey w List.mem_cons_self
  have hrest : IsRoutingKey key := fun v hv => hkey v (List.mem_cons_of_mem w hv)
  have hsep := atSeparator_dotted (pattern.map partText)
  have hsepKey := atSeparator_dotted key
  rw [List.map_cons, joined, joined]
  cases part with
  | word v =>
      obtain ⟨hdot, hstar, hhash⟩ := hpart v rfl
      rw [partText, mqTopicMatch_word hsep hsepKey v w hdot hstar hhash hw.2, Bool.and_eq_true,
        decide_eq_true_iff, ih key hrest, matches_word_iff]
  | one =>
      rw [partText, List.singleton_append, mqTopicMatch_star hsep hsepKey hw.1 hw.2, ih key hrest,
        matches_one_iff]
  | many =>
      obtain ⟨c, w', rfl⟩ := List.exists_cons_of_ne_nil hw.1
      rw [partText, List.singleton_append, List.cons_append, mqTopicMatch, if_pos rfl]
      rw [← List.cons_append, matches_many_iff]
      cases pattern with
      | nil =>
          rw [List.map_nil, dotted, if_pos rfl]
          constructor
          · intro _
            exact ⟨(c :: w') :: key, [], (List.append_nil _).symm, by simp, .nil⟩
          · intro _
            rfl
      | cons part' pattern =>
          have hne : dotted ((part' :: pattern).map partText) ≠ [] := List.cons_ne_nil _ _
          rw [if_neg hne, tryEach_skip (fun d k hd => mqTopicMatch_inside hsep hd) _ _ hw.2,
            tryEach_dotted (fun d k hd => mqTopicMatch_inside hsep hd) key
              (fun v hv => (hrest v hv).2)]
          constructor
          · intro h
            obtain ⟨taken, rest, rfl, hne, hmatch⟩ := h
            have hrest' : IsRoutingKey rest := fun v hv =>
              hrest v (List.mem_append_right taken hv)
            exact ⟨(c :: w') :: taken, rest, rfl, by simp, (ih rest hrest').mp hmatch⟩
          · intro h
            obtain ⟨taken, rest, heq, htaken, hmatch⟩ := h
            cases taken with
            | nil => contradiction
            | cons v taken =>
                rw [List.cons_append, List.cons.injEq] at heq
                obtain ⟨_, rfl⟩ := heq
                have hrest' : IsRoutingKey rest := fun v hv =>
                  hrest v (List.mem_append_right taken hv)
                refine ⟨taken, rest, rfl, ?_, (ih rest hrest').mpr hmatch⟩
                intro hnil
                subst hnil
                exact absurd (hmatch.eq_nil Nat.one_pos) (List.cons_ne_nil _ _)

theorem mqTopicMatch_dotted (pattern : Pattern)
    (hpattern : ∀ w, .word w ∈ pattern → dot ∉ w ∧ starMark ∉ w ∧ hashMark ∉ w) :
    ∀ key, IsRoutingKey key →
      (mqTopicMatch (dotted (pattern.map partText)) (dotted key) = true ↔
        Matches 1 pattern key) := by
  induction pattern with
  | nil =>
      intro key _
      rw [List.map_nil, matches_nil_iff]
      cases key with
      | nil => simp [dotted, mqTopicMatch]
      | cons w key => simp [dotted, mqTopicMatch]
  | cons part pattern ih =>
      intro key hkey
      have ih := ih fun w hw => hpattern w (List.mem_cons_of_mem part hw)
      cases key with
      | nil =>
          constructor
          · intro h
            rw [List.map_cons, dotted, dotted, mqTopicMatch_nil_right (by decide)] at h
            contradiction
          · intro h
            exact absurd (h.eq_nil Nat.one_pos) (List.cons_ne_nil _ _)
      | cons w key =>
          have hpart : ∀ v, part = .word v → dot ∉ v ∧ starMark ∉ v ∧ hashMark ∉ v :=
            fun v hv => hpattern v (hv ▸ List.mem_cons_self)
          rw [← mqTopicMatch_part hpart ih hkey, List.map_cons, dotted, dotted,
            mqTopicMatch_plain (by decide) (by decide), decide_eq_true rfl, Bool.true_and]
          rfl

theorem mqTopicMatch_iff {pattern : Pattern} (hpattern : WellFormed pattern)
    {key : List (List UInt8)} (hkey : IsRoutingKey key) :
    mqTopicMatch (patternText pattern) (joined key) = true ↔
      Matches 1 pattern key ∨ pattern = [.many] ∧ key = [] := by
  have hwords : ∀ w, .word w ∈ pattern → dot ∉ w ∧ starMark ∉ w ∧ hashMark ∉ w := fun w hw =>
    ⟨hpattern.noDot w hw, hpattern.noStar w hw, hpattern.noHash w hw⟩
  cases pattern with
  | nil =>
      rw [matches_nil_iff]
      cases key with
      | nil => simp [patternText, joined, mqTopicMatch]
      | cons w key =>
          obtain ⟨c, w', rfl⟩ := List.exists_cons_of_ne_nil (hkey w List.mem_cons_self).1
          simp [patternText, joined, mqTopicMatch]
  | cons part pattern =>
      have hpart : ∀ v, part = .word v → dot ∉ v ∧ starMark ∉ v ∧ hashMark ∉ v :=
        fun v hv => hwords v (hv ▸ List.mem_cons_self)
      have hrest := mqTopicMatch_dotted pattern
        fun w hw => hwords w (List.mem_cons_of_mem part hw)
      cases key with
      | cons w key =>
          rw [patternText, mqTopicMatch_part hpart hrest hkey]
          simp
      | nil =>
          have hno : ¬ Matches 1 (part :: pattern) [] := fun h =>
            absurd (h.eq_nil Nat.one_pos) (List.cons_ne_nil _ _)
          have hnotBlank := hpattern.notBlank
          rw [patternText, List.map_cons, joined, joined]
          -- Nothing is left of the key: only a `#` at the end of the pattern is passed over.
          cases part with
          | word v =>
              cases v with
              | cons a v =>
                  have ha : a ≠ hashMark := fun h => (hpart _ rfl).2.2 (h ▸ List.mem_cons_self)
                  simp [partText, mqTopicMatch, ha, hno]
              | nil =>
                  cases pattern with
                  | nil => contradiction
                  | cons part' pattern =>
                      have hdot : dot ≠ hashMark := by decide
                      simp [partText, dotted, mqTopicMatch, hdot, hno]
          | one =>
              have hstar : starMark ≠ hashMark := by decide
              simp [partText, mqTopicMatch, hstar, hno]
          | many =>
              cases pattern with
              | nil => simp [partText, dotted, mqTopicMatch]
              | cons part' pattern => simp [partText, dotted, mqTopicMatch, hno]

/-! ## The word semantics -/

/-- The matcher follows the word semantics on a pattern and a key exactly when a match needs
no `#` that stands for no words, the pattern `#` and the empty key apart. -/
theorem mqTopicMatch_eq_words_iff {pattern : Pattern} (hpattern : WellFormed pattern)
    {key : List (List UInt8)} (hkey : IsRoutingKey key) :
    (mqTopicMatch (patternText pattern) (joined key) = true ↔ Matches 0 pattern key) ↔
      (Matches 0 pattern key → Matches 1 pattern key ∨ pattern = [.many] ∧ key = []) := by
  rw [mqTopicMatch_iff hpattern hkey]
  constructor
  · intro h
    exact h.mpr
  · intro h
    refine ⟨?_, h⟩
    intro hmatch
    rcases hmatch with hmatch | ⟨rfl, rfl⟩
    · exact hmatch.mono (Nat.zero_le 1)
    · exact Matches.many [] (Nat.le_refl 0) .nil

theorem mqTopicMatch_eq_words_abc :
    let pattern : Pattern := [.word [97], .one, .many]
    mqTopicMatch (patternText pattern) (joined [[97], [98], [99]]) = true ↔
      Matches 0 pattern [[97], [98], [99]] := by
  intro pattern
  have hpattern : WellFormed pattern :=
    ⟨by simp [pattern, dot], by simp [pattern, starMark], by simp [pattern, hashMark],
      by simp [pattern]⟩
  have hkey : IsRoutingKey [[97], [98], [99]] := by simp [IsRoutingKey, dot]
  apply (mqTopicMatch_eq_words_iff hpattern hkey).mpr
  intro _
  exact Or.inl (.word _ (.one _ (.many [[99]] (Nat.le_refl 1) .nil)))

/-- `a.#` does not match `a`. -/
theorem mqTopicMatch_misses_zero_words :
    WellFormed [.word [97], .many] ∧ IsRoutingKey [[97]] ∧
      ¬ (mqTopicMatch (patternText [.word [97], .many]) (joined [[97]]) = true ↔
        Matches 0 [.word [97], .many] [[97]]) := by
  refine ⟨⟨by simp [dot], by simp [starMark], by simp [hashMark], by simp⟩, ?_, ?_⟩
  · simp [IsRoutingKey, dot]
  · intro h
    have hmatch := h.mpr (.word _ (.many [] (Nat.le_refl 0) .nil))
    have hcode : mqTopicMatch (patternText [.word [97], .many]) (joined [[97]]) = false := by
      decide +kernel
    rw [hcode] at hmatch
    contradiction

end MiniBackend.Infra.Proofs.TopicMatching
