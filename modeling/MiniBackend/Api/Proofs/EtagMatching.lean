import MiniBackend.Api.RestDesign

/-!
# Entity tags in a header field

The loop takes the quotes off a tag of the list.  If one of the tags is weak it then compares with
the value of the server, which has its quotes, so only two strong tags are ever found equal.  A
comma ends a tag wherever it stands, so the pieces of a tag with commas are compared on their own.
-/

namespace MiniBackend.Api.Proofs.EtagMatching

open MiniBackend.Lib.CString MiniBackend.Api.Rest

def tagText (tag : Bool × CStr) : CStr :=
  (if tag.1 then lit "W/" else []) ++ 34 :: (tag.2 ++ [34])

/-- A list of tags, each shorter than `REST_ETAG_LEN`, with blanks around the commas. -/
inductive IsTagList : List (Bool × CStr) → CStr → Prop
  | last {tag : Bool × CStr} {before after : CStr} (hcontent : 34 ∉ tag.2)
      (hlength : (tagText tag).length < restEtagLen) (hbefore : ∀ b ∈ before, b = 32)
      (hafter : ∀ b ∈ after, b = 32) : IsTagList [tag] (before ++ (tagText tag ++ after))
  | cons {tag : Bool × CStr} {before after : CStr} (hcontent : 34 ∉ tag.2)
      (hlength : (tagText tag).length < restEtagLen) (hbefore : ∀ b ∈ before, b = 32)
      (hafter : ∀ b ∈ after, b = 32) {tags : List (Bool × CStr)} {rest : CStr}
      (hrest : IsTagList tags rest) :
      IsTagList (tag :: tags) (before ++ (tagText tag ++ (after ++ 44 :: rest)))

/-- What stands between the quotes of the server's tag. -/
def opaquePart (body : List UInt8) : CStr :=
  hexPadded 8 (restDjb2Hash body).toNat ++ lit "-" ++ decimal body.length

/-! ## The tag of the server -/

theorem hexPadded_bytes {n value : Nat} {b : UInt8} (hb : b ∈ hexPadded n value) :
    48 ≤ b.toNat ∧ b.toNat < 103 := by
  rw [hexPadded, List.mem_map] at hb
  obtain ⟨i, -, rfl⟩ := hb
  have hlt : value / 16 ^ i % 16 < 16 := Nat.mod_lt _ (by decide)
  dsimp only
  rw [UInt8.toNat_ofNat']
  split <;> omega

theorem opaquePart_bytes {body : List UInt8} {b : UInt8} (hb : b ∈ opaquePart body) :
    b ≠ 32 ∧ b ≠ 34 ∧ b ≠ 44 ∧ b ≠ 47 := by
  have hrange : b.toNat = 45 ∨ 48 ≤ b.toNat := by
    rcases List.mem_append.mp hb with hb | hb
    · rcases List.mem_append.mp hb with hb | hb
      · exact Or.inr (hexPadded_bytes hb).1
      · obtain rfl : b = 45 := List.mem_singleton.mp hb
        exact Or.inl rfl
    · have hdigit := isDigit_of_mem_decimal hb
      rw [isDigit, Bool.and_eq_true, decide_eq_true_eq, UInt8.le_iff_toNat_le] at hdigit
      exact Or.inr hdigit.1
  refine ⟨?_, ?_, ?_, ?_⟩ <;> rintro rfl <;> exact absurd hrange (by decide)

theorem opaquePart_length {body : List UInt8} (hbody : body.length < 2 ^ 31) :
    9 ≤ (opaquePart body).length ∧ (opaquePart body).length ≤ 19 := by
  have hdecimal : (decimal body.length).length ≤ 10 :=
    length_decimal_le (by decide) (hbody.trans (by decide))
  have hhex : (hexPadded 8 (restDjb2Hash body).toNat).length = 8 := by simp [hexPadded]
  have hdash : (lit "-").length = 1 := rfl
  rw [opaquePart, List.length_append, List.length_append, hhex, hdash]
  omega

theorem restEtagStrong_eq {body : List UInt8} (hne : body ≠ []) (hbody : body.length < 2 ^ 31) :
    restEtagStrong body = ⟨34 :: (opaquePart body ++ [34]), false⟩ := by
  have hlength := (opaquePart_length hbody).2
  have hvalue : lit "\"" ++ hexPadded 8 (restDjb2Hash body).toNat ++ lit "-" ++
      decimal body.length ++ lit "\"" = 34 :: (opaquePart body ++ [34]) := by
    simp only [opaquePart, List.append_assoc]
    rfl
  rw [restEtagStrong, if_neg hne, hvalue]
  dsimp only
  rw [snprintf_of_lt]
  rw [List.length_cons, List.length_append, List.length_singleton, restEtagLen]
  omega

theorem restEtagWeak_eq {body : List UInt8} (hne : body ≠ []) (hbody : body.length < 2 ^ 31) :
    restEtagWeak body = ⟨lit "W/" ++ 34 :: (opaquePart body ++ [34]), true⟩ := by
  have hlength := (opaquePart_length hbody).2
  have htwo : (lit "W/").length = 2 := rfl
  have hvalue : (lit "W/" ++ 34 :: (opaquePart body ++ [34])).length < restEtagLen := by
    rw [List.length_append, List.length_cons, List.length_append, List.length_singleton, htwo,
      restEtagLen]
    omega
  rw [restEtagWeak, restEtagStrong_eq hne hbody]
  dsimp only
  rw [List.head?_cons, if_pos rfl, snprintf_of_lt hvalue, strncpy_of_le (by omega)]

/-! ## A round of the loop -/

theorem nextTag_head (p : CStr) : (nextTag p).2.1.head? ≠ some 34 := by
  have hchars : ∀ (quoted : Bool) (n : Nat) (q : CStr), (quoted = false → q.head? ≠ some 34) →
      (tagChars quoted n q).1.head? ≠ some 34 := by
    intro quoted n q hq
    cases n with
    | zero => simp [tagChars]
    | succ n =>
        cases q with
        | nil => simp [tagChars]
        | cons b q =>
            rw [tagChars]
            split
            · simp
            · split
              · simp
              · next hquote =>
                  rw [not_and] at hquote
                  intro hhead
                  have hb : b = 34 := Option.some.inj hhead
                  cases quoted with
                  | true => exact hquote rfl hb
                  | false => exact hq rfl (by rw [hb]; rfl)
  rw [nextTag]
  dsimp only
  apply hchars
  intro hquoted
  rw [if_neg (by simp [hquoted])]
  exact of_decide_eq_false hquoted

theorem tagEquals_weak {server : RestEtag} {value : CStr} (hvalue : value.head? = some 34)
    {weak : Bool} (hserver : server = ⟨lit "W/" ++ value, true⟩ ∨ server = ⟨value, false⟩ ∧ weak)
    (p : CStr) : tagEquals server weak (nextTag p).2.1 = false := by
  have hne : value ≠ (nextTag p).2.1 := fun heq => nextTag_head p (heq ▸ hvalue)
  rcases hserver with rfl | ⟨rfl, hweak⟩
  · rw [tagEquals, if_pos (by simp)]
    exact decide_eq_false hne
  · rw [tagEquals, if_pos (by simp [hweak])]
    exact decide_eq_false hne

theorem matchTags_weak {value : CStr} (hvalue : value.head? = some 34) (p : CStr) :
    matchTags ⟨lit "W/" ++ value, true⟩ p = false := by
  induction p using matchTags.induct ⟨lit "W/" ++ value, true⟩ with
  | case1 => rw [matchTags, if_pos rfl]
  | case2 p hp hequal => exact absurd hequal (by simp [tagEquals_weak hvalue (.inl rfl)])
  | case3 p hp hother ih => rw [matchTags, if_neg hp, if_neg hother, ih]

/-! ## A strong tag at the server -/

section Strong

variable {content : CStr} (hbytes : ∀ b ∈ content, b ≠ 32 ∧ b ≠ 34 ∧ b ≠ 44 ∧ b ≠ 47)
  (hlength : 9 ≤ content.length ∧ content.length ≤ 19)

def strongTag (content : CStr) : RestEtag := ⟨34 :: (content ++ [34]), false⟩

include hlength in
theorem tagEquals_strong (p : CStr) :
    tagEquals (strongTag content) (nextTag p).1 (nextTag p).2.1 =
      decide ((nextTag p).1 = false ∧ (nextTag p).2.1 = content) := by
  cases hweak : (nextTag p).1 with
  | true =>
      rw [strongTag, tagEquals_weak rfl (.inr ⟨rfl, rfl⟩)]
      simp
  | false =>
      generalize (nextTag p).2.1 = tag
      rw [tagEquals, if_neg (by simp [strongTag])]
      simp only [true_and]
      congr 1
      have htext : lit "\"" ++ tag ++ lit "\"" = 34 :: (tag ++ [34]) := rfl
      rw [htext, snprintf, strongTag, eq_iff_iff]
      constructor
      · intro heq
        by_cases hshort : (34 :: (tag ++ [34])).length ≤ restEtagLen - 1
        · rw [List.take_of_length_le hshort] at heq
          exact (List.append_cancel_right (List.cons.inj heq).2).symm
        · -- a text that is cut off is longer than the tag of the server
          have hcut := congrArg List.length heq
          rw [List.length_take, Nat.min_eq_left (by omega), List.length_cons, List.length_append,
            List.length_singleton, restEtagLen] at hcut
          omega
      · rintro rfl
        rw [List.take_of_length_le]
        rw [List.length_cons, List.length_append, List.length_singleton, restEtagLen]
        omega

include hlength in
theorem matchTags_step {p : CStr} (hp : p ≠ []) :
    matchTags (strongTag content) p = true ↔
      ((nextTag p).1 = false ∧ (nextTag p).2.1 = content) ∨
        matchTags (strongTag content) (nextTag p).2.2 = true := by
  rw [matchTags, if_neg hp, tagEquals_strong hlength]
  by_cases hequal : (nextTag p).1 = false ∧ (nextTag p).2.1 = content
  · simp [hequal]
  · simp [hequal]

include hlength in
theorem matchTags_skip {before : CStr} (hbefore : ∀ b ∈ before, b = 32 ∨ b = 44) (p : CStr) :
    matchTags (strongTag content) (before ++ p) = true ↔
      matchTags (strongTag content) p = true := by
  have hsame : nextTag (before ++ p) = nextTag p := by
    rw [nextTag, List.dropWhile_append_of_pos, ← nextTag]
    simpa using hbefore
  by_cases hp : p = []
  · rw [hp, List.append_nil] at hsame ⊢
    by_cases hempty : before = []
    · rw [hempty]
    · have hnone : ([] : CStr) ≠ content := by
        rintro rfl
        exact absurd hlength.1 (by decide)
      rw [matchTags_step hlength hempty, hsame]
      change (_ ∧ [] = content) ∨ matchTags (strongTag content) [] = true ↔ _
      simp [hnone]
  · by_cases hempty : before = []
    · rw [hempty, List.nil_append]
    · rw [matchTags_step hlength hp, matchTags_step hlength (by simp [hp]), hsame]

end Strong

/-! ## Runs of bytes -/

theorem tagChars_append {quoted : Bool} {y : CStr}
    (hy : ∀ b ∈ y, b ≠ 44 ∧ (quoted = true → b ≠ 34)) (n : Nat) (z : CStr) :
    tagChars quoted n (y ++ z) =
      if y.length ≤ n then
        (y ++ (tagChars quoted (n - y.length) z).1, (tagChars quoted (n - y.length) z).2)
      else (y.take n, y.drop n ++ z) := by
  induction y generalizing n with
  | nil => simp
  | cons b y ih =>
      obtain ⟨⟨hcomma, hquote⟩, hy⟩ := List.forall_mem_cons.mp hy
      cases n with
      | zero => simp [tagChars]
      | succ n =>
          rw [List.cons_append, tagChars, if_neg hcomma, if_neg (by simpa using hquote), ih hy]
          simp only [List.length_cons, Nat.add_le_add_iff_right, Nat.add_sub_add_right]
          split <;> simp

theorem tagChars_stop {z : CStr} (hz : z = [] ∨ z.head? = some 44) (quoted : Bool) (n : Nat) :
    tagChars quoted n z = ([], z) := by
  cases n with
  | zero => rfl
  | succ n =>
      cases z with
      | nil => rfl
      | cons b z =>
          obtain rfl : b = 44 := by simpa using hz
          rw [tagChars, if_pos rfl]

theorem tagChars_run {quoted : Bool} {y z : CStr}
    (hy : ∀ b ∈ y, b ≠ 44 ∧ (quoted = true → b ≠ 34)) (hz : z = [] ∨ z.head? = some 44) (n : Nat) :
    tagChars quoted n (y ++ z) = (y.take n, y.drop n ++ z) := by
  rw [tagChars_append hy, tagChars_stop hz]
  split
  · next hle => rw [List.take_of_length_le hle, List.drop_of_length_le hle, List.append_nil]; rfl
  · rfl

/-! ## The tags of a list -/

def middlePieces (content : CStr) : List CStr := (content.splitOn 44).tail.dropLast

def Hits (content : CStr) (tag : Bool × CStr) : Prop :=
  (tag.1 = false ∧ (tag.2.splitOn 44).head? = some content) ∨
    ∃ piece ∈ middlePieces tag.2, piece.dropWhile (· = 32) = content

theorem splitOn_comma {first : CStr} (hfirst : 44 ∉ first) (rest : CStr) :
    (first ++ 44 :: rest).splitOn 44 = first :: rest.splitOn 44 := by
  rw [List.splitOn_eq_splitOnP, List.splitOnP_append_cons_of_forall_mem _ _ (by simp),
    List.splitOn_eq_splitOnP]
  intro b hb
  rw [beq_eq_false_iff_ne]
  rintro rfl
  exact hfirst hb

theorem splitOn_single {s : CStr} (hs : 44 ∉ s) : s.splitOn 44 = [s] := by
  rw [List.splitOn_eq_splitOnP, List.splitOnP_eq_singleton]
  intro b hb
  rw [beq_eq_false_iff_ne]
  rintro rfl
  exact hs hb

theorem nextTag_tagText {tag : Bool × CStr} (hcontent : 34 ∉ tag.2)
    (hlength : (tagText tag).length < restEtagLen) (rest : CStr) :
    nextTag (tagText tag ++ rest) =
      (tag.1, tagChars true (restEtagLen - 1) (tag.2 ++ 34 :: rest)) := by
  obtain ⟨weak, content⟩ := tag
  cases weak with
  | false =>
      have htext : tagText (false, content) ++ rest = 34 :: (content ++ 34 :: rest) := by
        simp [tagText]
      rw [htext]
      rfl
  | true =>
      have htext : tagText (true, content) ++ rest = 87 :: 47 :: 34 :: (content ++ 34 :: rest) := by
        simp [tagText, lit]
      rw [htext]
      rfl

/-- A round that begins inside a tag: a prefix that looks like that of a weak tag is taken off, and
the quote at the end of the tag is taken for one at the beginning if nothing is left. -/
theorem nextTag_piece {m x : CStr} (hstart : ∀ b ∈ (m ++ x).head?, b ≠ 32 ∧ b ≠ 44)
    (hx : x.head? = some 44 ∨ x.head? = some 34) :
    ∃ weak m', m' <:+ m ∧ (weak = false → m' = m) ∧ (weak = true → 47 ∈ m) ∧
      nextTag (m ++ x) = (weak, tagChars (decide ((m' ++ x).head? = some 34)) (restEtagLen - 1)
        (if (m' ++ x).head? = some 34 then (m' ++ x).tail else m' ++ x)) := by
  have hdrop : (m ++ x).dropWhile (fun b => b = 32 || b = 44) = m ++ x := by
    cases hmx : m ++ x with
    | nil => rfl
    | cons b rest =>
        rw [hmx] at hstart
        exact List.dropWhile_cons_of_neg (by simp [hstart b rfl])
  rw [nextTag, hdrop]
  by_cases hweak : strncmpEq (m ++ x) (lit "W/") 2 = true
  · have htake : (m ++ x).take 2 = [87, 47] := beq_iff_eq.mp hweak
    cases x with
    | nil => simp at hx
    | cons c x =>
        have hc : c ≠ 87 ∧ c ≠ 47 := by
          constructor <;> rintro rfl <;> simp at hx
        cases m with
        | nil => exact absurd (List.cons.inj htake).1 hc.1
        | cons a m =>
            cases m with
            | nil => exact absurd (List.cons.inj (List.cons.inj htake).2).1 hc.2
            | cons b m =>
                have hb : b = 47 := (List.cons.inj (List.cons.inj htake).2).1
                refine ⟨true, m, ⟨[a, b], rfl⟩, by simp, by simp [hb], ?_⟩
                simp only [hweak, if_true, decide_eq_true_eq]
                rfl
  · refine ⟨false, m, List.suffix_rfl, fun _ => rfl, by simp, ?_⟩
    simp only [hweak, if_false, decide_eq_true_eq, Bool.false_eq_true]

section Pieces

variable {content : CStr} (hbytes : ∀ b ∈ content, b ≠ 32 ∧ b ≠ 34 ∧ b ≠ 44 ∧ b ≠ 47)
  (hlength : 9 ≤ content.length ∧ content.length ≤ 19)

include hbytes hlength

theorem matchTags_middle {m : CStr} (hquote : 34 ∉ m) (hcomma : 44 ∉ m)
    (hshort : m.length < restEtagLen) (rest : CStr) :
    matchTags (strongTag content) (m ++ 44 :: rest) = true ↔
      m.dropWhile (· = 32) = content ∨ matchTags (strongTag content) (44 :: rest) = true := by
  have hsplit : m.takeWhile (· = 32) ++ m.dropWhile (· = 32) = m :=
    List.takeWhile_append_dropWhile
  have hblanks : ∀ b ∈ m.takeWhile (· = 32), b = 32 ∨ b = 44 := by
    intro b hb
    exact Or.inl (by simpa using List.mem_takeWhile_imp hb)
  have hsuffix : m.dropWhile (· = 32) <:+ m := List.dropWhile_suffix _
  have hhead := List.head?_dropWhile_not (· = 32) m
  generalize m.dropWhile (· = 32) = piece at hsplit hsuffix hhead ⊢
  rw [← hsplit, List.append_assoc, matchTags_skip hlength hblanks]
  cases hpiece : piece with
  | nil =>
      have hne : ([] : CStr) ≠ content := by
        rintro rfl
        exact absurd hlength.1 (by decide)
      rw [List.nil_append, or_iff_right hne]
  | cons c tail =>
      rw [hpiece] at hsuffix hhead
      have hc : c ≠ 32 ∧ c ≠ 44 := by
        constructor
        · simpa using hhead
        · rintro rfl
          exact hcomma (hsuffix.subset List.mem_cons_self)
      obtain ⟨weak, p, hp, hstrong, hslash, hround⟩ := nextTag_piece (m := c :: tail)
        (x := 44 :: rest) (by simpa using hc) (Or.inl rfl)
      have hpm : ∀ b ∈ p, b ≠ 44 ∧ b ≠ 34 := by
        intro b hb
        have hmem := hsuffix.subset (hp.subset hb)
        exact ⟨fun heq => hcomma (heq ▸ hmem), fun heq => hquote (heq ▸ hmem)⟩
      have hchars : ∀ b ∈ p, b ≠ 44 ∧ (false = true → b ≠ 34) := fun b hb => ⟨(hpm b hb).1, by simp⟩
      have hunquoted : ¬(p ++ 44 :: rest).head? = some 34 := by
        cases p with
        | nil => simp
        | cons b p => simpa using (hpm b List.mem_cons_self).2
      have hfits : p.length ≤ restEtagLen - 1 := by
        have hle := hp.length_le
        have hle' := hsuffix.length_le
        omega
      rw [if_neg hunquoted, decide_eq_false hunquoted, tagChars_run hchars (Or.inr rfl),
        List.take_of_length_le hfits, List.drop_of_length_le hfits, List.nil_append] at hround
      rw [matchTags_step hlength (by simp), hround]
      apply or_congr_left
      constructor
      · rintro ⟨hweak, hequal⟩
        rw [← hstrong hweak]
        exact hequal
      · intro hequal
        have hweak : weak = false := by
          by_contra hweak
          have hmem := hslash (by simpa using hweak)
          rw [hequal] at hmem
          exact (hbytes 47 hmem).2.2.2 rfl
        exact ⟨hweak, (hstrong hweak).trans hequal⟩

/-- What is read from the last piece of a tag, its closing quote and the blanks behind it is not
an opaque part, and at most blanks are left in front of `z`. -/
theorem tagChars_end {p : CStr} (hp : ∀ b ∈ p, b ≠ 44 ∧ b ≠ 34)
    (hshort : p.length < restEtagLen - 1) {after z : CStr} (hafter : ∀ b ∈ after, b = 32)
    (hz : z = [] ∨ z.head? = some 44) :
    ∃ tag n, tagChars (decide ((p ++ 34 :: (after ++ z)).head? = some 34)) (restEtagLen - 1)
        (if (p ++ 34 :: (after ++ z)).head? = some 34 then (p ++ 34 :: (after ++ z)).tail
          else p ++ 34 :: (after ++ z)) = (tag, after.drop n ++ z) ∧
      tag ≠ content := by
  cases p with
  | nil =>
      -- the closing quote is taken for an opening one
      have hrun : ∀ b ∈ after, b ≠ 44 ∧ (true = true → b ≠ 34) := by
        intro b hb
        rw [hafter b hb]
        decide
      refine ⟨_, restEtagLen - 1, tagChars_run hrun hz _, ?_⟩
      intro hequal
      obtain ⟨b, rest, rfl⟩ := List.exists_cons_of_length_pos (by omega : 0 < content.length)
      have hmem : b ∈ after.take (restEtagLen - 1) := hequal ▸ List.mem_cons_self
      exact (hbytes b List.mem_cons_self).1 (hafter b (List.mem_of_mem_take hmem))
  | cons c p =>
      -- the closing quote is part of what is read
      have hunquoted : ¬(c :: p ++ 34 :: (after ++ z)).head? = some 34 := by
        simpa using (hp c List.mem_cons_self).2
      have hrun : ∀ b ∈ c :: p ++ 34 :: after, b ≠ 44 ∧ (false = true → b ≠ 34) := by
        intro b hb
        refine ⟨?_, by simp⟩
        rcases List.mem_append.mp hb with hb | hb
        · exact (hp b hb).1
        · rcases List.mem_cons.mp hb with rfl | hb
          · decide
          · rw [hafter b hb]
            decide
      have hsplit : c :: p ++ 34 :: (after ++ z) = (c :: p ++ 34 :: after) ++ z := by simp
      obtain ⟨k, hk⟩ : ∃ k, restEtagLen - 1 - (c :: p).length = k + 1 :=
        ⟨restEtagLen - 1 - (c :: p).length - 1, by omega⟩
      have hdrop : (c :: p ++ 34 :: after).drop (restEtagLen - 1) = after.drop k := by
        rw [List.drop_append, List.drop_of_length_le (by omega), hk, List.drop_succ_cons]
        rfl
      rw [if_neg hunquoted, decide_eq_false hunquoted, hsplit, tagChars_run hrun hz, hdrop]
      refine ⟨_, _, rfl, ?_⟩
      intro hequal
      have hmem : (34 : UInt8) ∈ (c :: p ++ 34 :: after).take (restEtagLen - 1) := by
        rw [List.take_append, List.mem_append, hk, List.take_succ_cons]
        exact Or.inr List.mem_cons_self
      rw [hequal] at hmem
      exact (hbytes 34 hmem).2.1 rfl

theorem matchTags_end {m : CStr} (hquote : 34 ∉ m) (hcomma : 44 ∉ m)
    (hshort : m.length < restEtagLen - 1) {after z : CStr} (hafter : ∀ b ∈ after, b = 32)
    (hz : z = [] ∨ z.head? = some 44) :
    matchTags (strongTag content) (m ++ 34 :: (after ++ z)) = true ↔
      matchTags (strongTag content) z = true := by
  have hblanks : ∀ b ∈ m.takeWhile (· = 32), b = 32 ∨ b = 44 := by
    intro b hb
    exact Or.inl (by simpa using List.mem_takeWhile_imp hb)
  have hafter' : ∀ n, ∀ b ∈ after.drop n, b = 32 ∨ b = 44 :=
    fun n b hb => Or.inl (hafter b (List.mem_of_mem_drop hb))
  have hsuffix : m.dropWhile (· = 32) <:+ m := List.dropWhile_suffix _
  have hhead := List.head?_dropWhile_not (· = 32) m
  rw [← List.takeWhile_append_dropWhile (p := (· = 32)) (l := m), List.append_assoc,
    matchTags_skip hlength hblanks]
  generalize m.dropWhile (· = 32) = piece at hsuffix hhead ⊢
  have hstart : ∀ b ∈ (piece ++ 34 :: (after ++ z)).head?, b ≠ 32 ∧ b ≠ 44 := by
    cases piece with
    | nil => simp
    | cons c piece =>
        intro b hb
        obtain rfl : c = b := Option.some.inj hb
        constructor
        · simpa using hhead
        · rintro rfl
          exact hcomma (hsuffix.subset List.mem_cons_self)
  obtain ⟨weak, p, hp, -, -, hround⟩ := nextTag_piece hstart (Or.inr rfl)
  have hpm : ∀ b ∈ p, b ≠ 44 ∧ b ≠ 34 := by
    intro b hb
    have hmem := hsuffix.subset (hp.subset hb)
    exact ⟨fun heq => hcomma (heq ▸ hmem), fun heq => hquote (heq ▸ hmem)⟩
  have hlt : p.length < restEtagLen - 1 :=
    (hp.length_le.trans hsuffix.length_le).trans_lt hshort
  obtain ⟨tag, n, hread, hne⟩ := tagChars_end hbytes hlength hpm hlt hafter hz
  rw [matchTags_step hlength (by simp), hround, hread, or_iff_right (fun h => hne h.2),
    matchTags_skip hlength (hafter' n)]

theorem matchTags_pieces {s : CStr} (hquote : 34 ∉ s) (hshort : s.length < restEtagLen - 1)
    {after z : CStr} (hafter : ∀ b ∈ after, b = 32) (hz : z = [] ∨ z.head? = some 44) :
    matchTags (strongTag content) (44 :: (s ++ 34 :: (after ++ z))) = true ↔
      (∃ piece ∈ (s.splitOn 44).dropLast, piece.dropWhile (· = 32) = content) ∨
        matchTags (strongTag content) z = true := by
  have hcommas : ∀ b ∈ ([44] : CStr), b = 32 ∨ b = 44 := by simp
  have hskip := matchTags_skip hlength hcommas (s ++ 34 :: (after ++ z))
  rw [List.singleton_append] at hskip
  rw [hskip]
  induction hn : s.length using Nat.strong_induction_on generalizing s with
  | _ n ih =>
      by_cases hcomma : 44 ∈ s
      · obtain ⟨m, rest, rfl, hm⟩ := List.eq_append_cons_of_mem hcomma
        rw [List.mem_append, List.mem_cons, not_or, not_or] at hquote
        rw [List.length_append, List.length_cons] at hshort hn
        have hskip' := matchTags_skip hlength hcommas (rest ++ 34 :: (after ++ z))
        rw [List.singleton_append] at hskip'
        have hrest : matchTags (strongTag content) (rest ++ 34 :: (after ++ z)) = true ↔ _ :=
          ih rest.length (by omega) hquote.2.2 (by omega) hskip' rfl
        rw [List.append_assoc, List.cons_append,
          matchTags_middle hbytes hlength hquote.1 hm (by omega), hskip', hrest, splitOn_comma hm,
          List.dropLast_cons_of_ne_nil (List.splitOn_ne_nil 44 rest), List.exists_mem_cons_iff,
          or_assoc]
      · rw [matchTags_end hbytes hlength hquote hcomma hshort hafter hz, splitOn_single hcomma]
        simp

theorem matchTags_tag {tag : Bool × CStr} (hquote : 34 ∉ tag.2)
    (hshort : (tagText tag).length < restEtagLen) {after z : CStr} (hafter : ∀ b ∈ after, b = 32)
    (hz : z = [] ∨ z.head? = some 44) :
    matchTags (strongTag content) (tagText tag ++ (after ++ z)) = true ↔
      Hits content tag ∨ matchTags (strongTag content) z = true := by
  have hlen : tag.2.length + 2 < restEtagLen := by
    rw [tagText, List.length_append, List.length_cons, List.length_append,
      List.length_singleton] at hshort
    omega
  have hne : tagText tag ++ (after ++ z) ≠ [] := by simp [tagText]
  have hround := nextTag_tagText hquote hshort (after ++ z)
  by_cases hcomma : 44 ∈ tag.2
  · obtain ⟨first, rest, hsplit, hfirst⟩ := List.eq_append_cons_of_mem hcomma
    rw [hsplit, List.mem_append, List.mem_cons, not_or, not_or] at hquote
    rw [hsplit, List.length_append, List.length_cons] at hlen
    have hrun : ∀ b ∈ first, b ≠ 44 ∧ (true = true → b ≠ 34) := fun b hb =>
      ⟨fun heq => hfirst (heq ▸ hb), fun _ heq => hquote.1 (heq ▸ hb)⟩
    rw [hsplit, List.append_assoc, List.cons_append, tagChars_run hrun (Or.inr rfl),
      List.take_of_length_le (by omega), List.drop_of_length_le (by omega),
      List.nil_append] at hround
    rw [matchTags_step hlength hne, hround,
      matchTags_pieces hbytes hlength hquote.2.2 (by omega) hafter hz, Hits, middlePieces, hsplit,
      splitOn_comma hfirst, or_assoc]
    simp
  · have hrun : ∀ b ∈ tag.2, b ≠ 44 ∧ (true = true → b ≠ 34) := fun b hb =>
      ⟨fun heq => hcomma (heq ▸ hb), fun _ heq => hquote (heq ▸ hb)⟩
    obtain ⟨k, hk⟩ : ∃ k, restEtagLen - 1 - tag.2.length = k + 1 :=
      ⟨restEtagLen - 1 - tag.2.length - 1, by omega⟩
    rw [tagChars_append hrun, if_pos (by omega), hk, tagChars, if_neg (by decide),
      if_pos ⟨rfl, rfl⟩, List.append_nil] at hround
    have hblanks : ∀ b ∈ after, b = 32 ∨ b = 44 := fun b hb => Or.inl (hafter b hb)
    rw [matchTags_step hlength hne, hround, matchTags_skip hlength hblanks, Hits, middlePieces,
      splitOn_single hcomma]
    simp

theorem matchTags_list {tags : List (Bool × CStr)} {text : CStr} (h : IsTagList tags text) :
    matchTags (strongTag content) text = true ↔ ∃ tag ∈ tags, Hits content tag := by
  induction h with
  | @last tag before after hquote hshort hbefore hafter =>
      have hblanks : ∀ b ∈ before, b = 32 ∨ b = 44 := fun b hb => Or.inl (hbefore b hb)
      have htag := matchTags_tag hbytes hlength hquote hshort hafter (Or.inl rfl)
      have hend : ¬matchTags (strongTag content) [] = true := by
        rw [matchTags, if_pos rfl]
        exact Bool.false_ne_true
      rw [List.append_nil, or_iff_left hend] at htag
      rw [matchTags_skip hlength hblanks, htag]
      simp
  | @cons tag before after hquote hshort hbefore hafter tags rest hrest ih =>
      have hblanks : ∀ b ∈ before, b = 32 ∨ b = 44 := fun b hb => Or.inl (hbefore b hb)
      have hcommas : ∀ b ∈ ([44] : CStr), b = 32 ∨ b = 44 := by simp
      have hskip := matchTags_skip hlength hcommas rest
      rw [List.singleton_append] at hskip
      rw [matchTags_skip hlength hblanks,
        matchTags_tag hbytes hlength hquote hshort hafter (Or.inr rfl), hskip, ih,
        List.exists_mem_cons_iff]

end Pieces

/-! ## The comparison -/

/-- A piece of a tag with commas is taken for the tag of the server. -/
def PieceHits (content : CStr) (tag : Bool × CStr) : Prop := 44 ∈ tag.2 ∧ Hits content tag

theorem hits_iff {content : CStr} {tag : Bool × CStr} :
    Hits content tag ↔ (44 ∉ tag.2 ∧ tag = (false, content)) ∨ PieceHits content tag := by
  by_cases hcomma : 44 ∈ tag.2
  · simp [PieceHits, hcomma]
  · rw [PieceHits, Hits, middlePieces, splitOn_single hcomma]
    simp [hcomma, Prod.ext_iff]

theorem IsTagList.ne_star {tags : List (Bool × CStr)} {text : CStr} (h : IsTagList tags text) :
    text ≠ lit "*" := by
  have hquote : 34 ∈ text := by
    cases h <;> simp [tagText]
  rintro rfl
  exact absurd hquote (by decide)

/-- A tag of the list has the opaque part of the server's tag. -/
def Listed (body : List UInt8) (tags : List (Bool × CStr)) : Prop :=
  ∃ tag ∈ tags, tag.2 = opaquePart body

/-- With a strong tag the answer is right when a strong tag of the list decides it, or when pieces
are found exactly if the tag is listed as a weak one.  With a weak tag it is right when the tag is
not listed.  A star always matches. -/
theorem etagMatch_iff {body : List UInt8} (hne : body ≠ []) (hbody : body.length < 2 ^ 31)
    {tags : List (Bool × CStr)} {text : CStr} (h : IsTagList tags text) :
    ((restEtagMatch (restEtagStrong body) text = true ↔ Listed body tags) ↔
      (false, opaquePart body) ∈ tags ∨
        ((true, opaquePart body) ∈ tags ↔ ∃ tag ∈ tags, PieceHits (opaquePart body) tag)) ∧
    ((restEtagMatch (restEtagWeak body) text = true ↔ Listed body tags) ↔ ¬Listed body tags) ∧
    restEtagMatch (restEtagStrong body) (lit "*") = true ∧
    restEtagMatch (restEtagWeak body) (lit "*") = true := by
  have hbytes : ∀ b ∈ opaquePart body, b ≠ 32 ∧ b ≠ 34 ∧ b ≠ 44 ∧ b ≠ 47 :=
    fun b => opaquePart_bytes
  have hlength := opaquePart_length hbody
  have hcomma : 44 ∉ opaquePart body := fun hmem => (hbytes 44 hmem).2.2.1 rfl
  have hstrong : restEtagMatch (restEtagStrong body) text = true ↔
      (false, opaquePart body) ∈ tags ∨ ∃ tag ∈ tags, PieceHits (opaquePart body) tag := by
    have hlist := matchTags_list hbytes hlength h
    rw [restEtagStrong_eq hne hbody, restEtagMatch, if_neg (List.cons_ne_nil _ _),
      if_neg h.ne_star, ← strongTag, hlist]
    constructor
    · rintro ⟨tag, hmem, hhit⟩
      rcases hits_iff.mp hhit with ⟨-, rfl⟩ | hpiece
      · exact Or.inl hmem
      · exact Or.inr ⟨tag, hmem, hpiece⟩
    · rintro (hmem | ⟨tag, hmem, hpiece⟩)
      · exact ⟨_, hmem, hits_iff.mpr (Or.inl ⟨hcomma, rfl⟩)⟩
      · exact ⟨tag, hmem, hits_iff.mpr (Or.inr hpiece)⟩
  have hweak : restEtagMatch (restEtagWeak body) text = false := by
    rw [restEtagWeak_eq hne hbody, restEtagMatch, if_neg (by simp), if_neg h.ne_star]
    exact matchTags_weak rfl text
  have hlisted : Listed body tags ↔
      (false, opaquePart body) ∈ tags ∨ (true, opaquePart body) ∈ tags := by
    constructor
    · rintro ⟨⟨weak, content⟩, hmem, rfl⟩
      cases weak with
      | false => exact Or.inl hmem
      | true => exact Or.inr hmem
    · rintro (hmem | hmem)
      · exact ⟨_, hmem, rfl⟩
      · exact ⟨_, hmem, rfl⟩
  refine ⟨?_, ?_, ?_, ?_⟩
  · rw [hstrong, hlisted]
    by_cases hmem : (false, opaquePart body) ∈ tags
    · exact iff_of_true (iff_of_true (Or.inl hmem) (Or.inl hmem)) (Or.inl hmem)
    · rw [or_iff_right hmem, or_iff_right hmem, or_iff_right hmem]
      exact Iff.comm
  · rw [hweak]
    simp
  · rw [restEtagStrong_eq hne hbody, restEtagMatch, if_neg (List.cons_ne_nil _ _), if_pos rfl]
  · rw [restEtagWeak_eq hne hbody, restEtagMatch, if_neg (by simp), if_pos rfl]

/-- A weak tag of another text, the server's tag, and a blank between them. -/
def helloTags : List (Bool × CStr) := [(true, lit "abc"), (false, opaquePart (lit "hello"))]

def helloTagsText : CStr :=
  tagText (true, lit "abc") ++ 44 :: 32 :: tagText (false, opaquePart (lit "hello"))

theorem isTagList_hello : IsTagList helloTags helloTagsText := by
  have hlength := (@opaquePart_length (lit "hello") (by decide)).2
  have hserver : IsTagList [(false, opaquePart (lit "hello"))]
      ([32] ++ (tagText (false, opaquePart (lit "hello")) ++ [])) := by
    refine .last (fun hquote => (opaquePart_bytes hquote).2.1 rfl) ?_ (by simp) (by simp)
    simp only [tagText, Bool.false_eq_true, if_false, List.nil_append, List.length_append,
      List.length_cons, List.length_nil, restEtagLen]
    omega
  rw [List.append_nil] at hserver
  exact @IsTagList.cons _ [] [] (by decide) (by decide) (by simp) (by simp) _ _ hserver

theorem etagMatch_iff_hello :
    (restEtagMatch (restEtagStrong (lit "hello")) helloTagsText = true ↔
      Listed (lit "hello") helloTags) := by
  have hserver : (false, opaquePart (lit "hello")) ∈ helloTags := by simp [helloTags]
  exact (etagMatch_iff (by decide) (by decide) isTagList_hello).1.mpr (Or.inl hserver)

/-- A weak tag does not match itself. -/
theorem weak_tag_not_matched :
    restEtagMatch (restEtagWeak (lit "hello")) (restEtagWeak (lit "hello")).value = false := by
  rw [restEtagWeak_eq (by decide) (by decide), restEtagMatch, if_neg (by simp),
    if_neg (by decide)]
  exact matchTags_weak rfl _

end MiniBackend.Api.Proofs.EtagMatching
