import MiniBackend.Lib.FlatObject

/-!
# Searching for a quoted name

A reader that looks for `"name"` with `strstr`, without the colon, does not always find the
member with the name: a string whose text after its last quote is the name is found as well.
The escaping of strings is a parameter; it puts a backslash in front of every quote.
-/

namespace MiniBackend.Lib.QuotedNames

open MiniBackend.Lib.CString MiniBackend.Lib.FlatObject

def afterLastQuote : CStr → CStr
  | [] => []
  | b :: s => if 34 ∈ b :: s then afterLastQuote s else b :: s

theorem afterLastQuote_of_not_mem {s : CStr} (h : 34 ∉ s) : afterLastQuote s = s := by
  cases s with
  | nil => rfl
  | cons b s => rw [afterLastQuote, if_neg h]

theorem afterLastQuote_append_quote (a s : CStr) :
    afterLastQuote (a ++ 34 :: s) = afterLastQuote s := by
  induction a with
  | nil => rw [List.nil_append, afterLastQuote, if_pos List.mem_cons_self]
  | cons b a ih => rw [List.cons_append, afterLastQuote, if_pos (by simp), ih]

def namePattern (name : CStr) : CStr := 34 :: (name ++ [34])

structure PlainName (name : CStr) : Prop where
  ne_nil : name ≠ []
  plain : PlainKey name

theorem PlainName.quote_not_mem {name : CStr} (h : PlainName name) : 34 ∉ name :=
  fun hmem => (h.plain 34 hmem).1 rfl

section Search

variable {name : CStr}

/-- Between two quotes that follow each other stands the name, or the search goes on at the
second one. -/
theorem strstr_segment (hname : 34 ∉ name) {a : CStr} (ha : 34 ∉ a) (rest : CStr) :
    strstr (34 :: (a ++ 34 :: rest)) (namePattern name) =
      if a = name then some (34 :: (name ++ 34 :: rest))
      else strstr (34 :: rest) (namePattern name) := by
  split
  · next heq =>
      subst heq
      refine strstr_eq_self ⟨rest, ?_⟩
      simp [namePattern]
  · next hne =>
      rw [strstr_cons_eq_tail, namePattern, strstr_append_of_not_mem ha]
      rw [namePattern, List.cons_prefix_cons]
      rintro ⟨-, more, h⟩
      rw [List.append_assoc, List.singleton_append] at h
      exact hne (append_cons_inj hname ha h).1.symm

theorem strstr_punctuation (hname : PlainName name) {c : UInt8} (hc : c = 44 ∨ c = 58 ∨ c = 125)
    (rest : CStr) :
    strstr (34 :: c :: rest) (namePattern name) = strstr rest (namePattern name) := by
  have hquote : c ≠ 34 := by
    rcases hc with rfl | rfl | rfl <;> decide
  rw [strstr_cons_eq_tail, namePattern, strstr_cons_of_ne hquote]
  rw [namePattern, List.cons_prefix_cons, not_and]
  intro _
  cases hcases : name with
  | nil => exact absurd hcases hname.ne_nil
  | cons b key =>
      have hb := hname.plain b (by simp [hcases])
      rw [List.cons_append, List.cons_prefix_cons, not_and]
      rintro rfl
      rcases hc with rfl | rfl | rfl
      · exact absurd rfl hb.2.1
      · exact absurd rfl hb.2.2.1
      · exact absurd rfl hb.2.2.2.2

end Search

/-! ## Escaped strings -/

theorem length_cutAtQuote_le (a rest : CStr) :
    (cutAtQuote (a ++ 34 :: rest)).length ≤ a.length := by
  induction a with
  | nil => simp [cutAtQuote]
  | cons b a ih =>
      rw [cutAtQuote, List.cons_append, List.takeWhile_cons, ← cutAtQuote]
      split
      · exact Nat.succ_le_succ ih
      · exact Nat.zero_le _

section Escape

/-- A byte is written as it is or with a backslash, and the quote always with one. -/
structure Escapes (esc : UInt8 → CStr) : Prop where
  quote : esc 34 = [92, 34]
  other : ∀ b, b ≠ 34 → esc b = [b] ∧ b ≠ 92 ∨ ∃ c, c ≠ 34 ∧ esc b = [92, c]

variable {esc : UInt8 → CStr} (hesc : Escapes esc)
include hesc

theorem Escapes.quote_not_mem {s : CStr} (hs : 34 ∉ s) : 34 ∉ s.flatMap esc := by
  intro hmem
  obtain ⟨b, hb, hquote⟩ := List.mem_flatMap.mp hmem
  have hne : b ≠ 34 := fun heq => hs (heq ▸ hb)
  rcases hesc.other b hne with ⟨heq, -⟩ | ⟨c, hc, heq⟩
  · rw [heq, List.mem_singleton] at hquote
    exact hne hquote.symm
  · rw [heq] at hquote
    simp [hc.symm] at hquote

theorem Escapes.eq_of_plain {s t : CStr} (ht : 92 ∉ t) (h : s.flatMap esc = t) : s = t := by
  subst h
  have hself : ∀ b ∈ s, esc b = [b] := by
    intro b hb
    by_cases hne : b = 34
    · refine absurd (List.mem_flatMap.mpr ⟨b, hb, ?_⟩) ht
      rw [hne, hesc.quote]
      exact List.mem_cons_self
    · rcases hesc.other b hne with ⟨heq, -⟩ | ⟨c, -, heq⟩
      · exact heq
      · refine absurd (List.mem_flatMap.mpr ⟨b, hb, ?_⟩) ht
        rw [heq]
        exact List.mem_cons_self
  rw [List.flatMap_congr hself]
  simp

theorem Escapes.length_le (s : CStr) : s.length ≤ (s.flatMap esc).length := by
  induction s with
  | nil => exact Nat.le_refl _
  | cons b s ih =>
      have hpos : 1 ≤ (esc b).length := by
        by_cases hne : b = 34
        · simp [hne, hesc.quote]
        · rcases hesc.other b hne with ⟨heq, -⟩ | ⟨c, -, heq⟩
          · simp [heq]
          · simp [heq]
      rw [List.flatMap_cons, List.length_append, List.length_cons]
      omega

theorem Escapes.flatMap_eq_self_iff (s : CStr) :
    s.flatMap esc = s ↔ ∀ b ∈ s, esc b = [b] := by
  induction s with
  | nil => simp
  | cons b s ih =>
      have hlong : ∀ c d, [c, d] ++ s.flatMap esc ≠ b :: s := by
        intro c d heq
        have hlen := congrArg List.length heq
        have := hesc.length_le s
        simp only [List.length_append, List.length_cons, List.length_nil] at hlen
        omega
      rw [List.flatMap_cons, List.forall_mem_cons, ← ih]
      by_cases hne : b = 34
      · rw [hne, hesc.quote, ← hne]
        exact iff_of_false (hlong 92 b) fun h => absurd h.1 (by simp)
      · rcases hesc.other b hne with ⟨heq, -⟩ | ⟨c, -, heq⟩
        · simp [heq]
        · rw [heq]
          exact iff_of_false (hlong 92 c) fun h => absurd h.1 (by simp)

/-- The search through a string: it stops there exactly if the text after the last quote is
the name. -/
theorem Escapes.strstr_string {name : CStr} (hname : PlainName name)
    (hself : ∀ b ∈ name, esc b = [b]) (s rest : CStr) :
    strstr (34 :: (s.flatMap esc ++ 34 :: rest)) (namePattern name) =
      if afterLastQuote s = name then some (34 :: (name ++ 34 :: rest))
      else strstr (34 :: rest) (namePattern name) := by
  induction hn : s.length using Nat.strong_induction_on generalizing s with
  | _ n ih =>
      by_cases hquote : 34 ∈ s
      · obtain ⟨u, v, rfl, hu⟩ := List.eq_append_cons_of_mem hquote
        have hsplit : (u ++ 34 :: v).flatMap esc ++ 34 :: rest =
            (u.flatMap esc ++ [92]) ++ 34 :: (v.flatMap esc ++ 34 :: rest) := by
          simp [hesc.quote]
        have hsegment : 34 ∉ u.flatMap esc ++ [92] := by
          rw [List.mem_append, not_or]
          exact ⟨hesc.quote_not_mem hu, by decide⟩
        have hne : u.flatMap esc ++ [92] ≠ name := by
          rintro rfl
          exact (hname.plain 92 (by simp)).2.2.2.1 rfl
        rw [hsplit, strstr_segment hname.quote_not_mem hsegment, if_neg hne,
          ih v.length (by simp at hn; omega) v rfl, afterLastQuote_append_quote]
      · have hiff : s.flatMap esc = name ↔ s = name := by
          have hslash : 92 ∉ name := fun hmem => (hname.plain 92 hmem).2.2.2.1 rfl
          constructor
          · exact hesc.eq_of_plain hslash
          · rintro rfl
            exact (hesc.flatMap_eq_self_iff s).mpr hself
        rw [strstr_segment hname.quote_not_mem (hesc.quote_not_mem hquote),
          afterLastQuote_of_not_mem hquote]
        exact if_congr hiff rfl rfl

theorem Escapes.cutAtQuote_eq_iff (s rest : CStr) :
    cutAtQuote (s.flatMap esc ++ 34 :: rest) = s ↔ ∀ b ∈ s, esc b = [b] := by
  by_cases hquote : 34 ∈ s
  · refine iff_of_false (fun h => ?_) fun h => ?_
    · rw [← h] at hquote
      exact quote_not_mem_cutAtQuote _ hquote
    · have := (hesc.quote.symm.trans (h 34 hquote))
      exact absurd this (by decide)
  · have hall : ∀ b ∈ s.flatMap esc, decide (b ≠ 34) = true := by
      intro b hb
      have hne : b ≠ 34 := fun heq => hesc.quote_not_mem hquote (heq ▸ hb)
      exact decide_eq_true hne
    rw [← hesc.flatMap_eq_self_iff, cutAtQuote, List.takeWhile_append_of_pos hall]
    simp

end Escape

end MiniBackend.Lib.QuotedNames
