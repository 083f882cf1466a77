import Mathlib.Data.List.Lex
import Mathlib.Data.List.TakeWhile
import Mathlib.Data.Nat.Digits.Lemmas

/-!
# C strings as byte lists

A C string is the list of the bytes before its terminator.  The definitions
below follow the documented behaviour of the `string.h`, `stdlib.h` and
`stdio.h` functions on such lists; buffers of fixed size appear as explicit
bounds.  Nothing here mentions a particular program.
-/

namespace MiniBackend.Lib.CString

abbrev CStr := List UInt8

instance lawfulBEqCStr : LawfulBEq CStr := inferInstance

abbrev Field (n : Nat) := { s : CStr // s.length < n }

theorem forall_byte {motive : UInt8 → Prop} (h : ∀ n : Fin 256, motive (UInt8.ofNat n.val))
    (b : UInt8) : motive b := by
  have hb := h ⟨b.toNat, UInt8.toNat_lt b⟩
  rw [UInt8.ofNat_toNat] at hb
  exact hb

def lit (s : String) : CStr := s.toList.map fun c => UInt8.ofNat c.toNat

/-- What `strlen` and the other string functions see of a buffer: everything
before the first zero byte. -/
def ofBuffer (buf : List UInt8) : CStr := buf.takeWhile (· ≠ 0)

theorem ofBuffer_of_ne {s : CStr} (h : ∀ b ∈ s, b ≠ 0) : ofBuffer s = s :=
  List.takeWhile_eq_self_iff.mpr fun b hb => decide_eq_true (h b hb)

theorem ofBuffer_append (buf more : List UInt8) :
    ∃ rest, ofBuffer (buf ++ more) = ofBuffer buf ++ rest := by
  by_cases hall : ∀ b ∈ buf, b ≠ 0
  · refine ⟨ofBuffer more, ?_⟩
    rw [ofBuffer_of_ne hall, ofBuffer, List.takeWhile_append_of_pos]
    · rfl
    · intro b hb
      simpa using hall b hb
  · refine ⟨[], ?_⟩
    rw [List.append_nil, ofBuffer, List.takeWhile_append, if_neg]
    · rfl
    · intro hlength
      apply hall
      intro b hb
      rw [← (List.takeWhile_prefix _).eq_of_length hlength] at hb
      simpa using List.mem_takeWhile_imp hb

/-- The first `n` bytes of a buffer of which only a prefix was written. -/
def bufferBytes (written : List UInt8) (junk : Nat → UInt8) (n : Nat) : List UInt8 :=
  (List.range n).map fun i => written.getD i (junk i)

theorem bufferBytes_of_le {written : List UInt8} (junk : Nat → UInt8) {n : Nat}
    (hn : n ≤ written.length) : bufferBytes written junk n = written.take n := by
  apply List.ext_getElem
  · simp [bufferBytes, hn]
  · intro i hi _
    have hin : i < written.length := by
      have : i < n := by simpa [bufferBytes] using hi
      omega
    simp [bufferBytes, List.getD_eq_getElem?_getD, List.getElem?_eq_getElem hin]

/-- `strncpy(dst, src, n)` into a field whose byte `n` is and stays zero. -/
def strncpy (src : CStr) (n : Nat) : CStr := src.take n

def snprintf (text : CStr) (size : Nat) : CStr := text.take (size - 1)

theorem strncpy_of_le {src : CStr} {n : Nat} (h : src.length ≤ n) :
    strncpy src n = src := List.take_of_length_le h

theorem snprintf_of_lt {text : CStr} {size : Nat} (h : text.length < size) :
    snprintf text size = text := List.take_of_length_le (by omega)

/-- What a caller's buffer of the given size gets, if there is one: `strncpy` and the
terminator. -/
def outBuffer (size : Option Nat) (text : CStr) : Option CStr :=
  (size.filter (0 < ·)).map fun n => strncpy text (n - 1)

def sizeSub (j pad : Nat) : Nat := if pad ≤ j then j - pad else 2 ^ 64 + j - pad

theorem sizeSub_of_le {j pad : Nat} (h : pad ≤ j) : sizeSub j pad = j - pad := if_pos h

def strncmpEq (a b : CStr) (n : Nat) : Bool := a.take n == b.take n

/-- Compared over the length of the shorter one, it is a prefix of the other. -/
theorem strncmpEq_min_iff (a b : CStr) :
    strncmpEq a b (if a.length < b.length then a.length else b.length) = true ↔
      a <+: b ∨ b <+: a := by
  rw [strncmpEq, beq_iff_eq, List.prefix_iff_eq_take, List.prefix_iff_eq_take]
  split
  · rename_i hshort
    rw [List.take_length]
    constructor
    · exact Or.inl
    · rintro (hleft | hright)
      · exact hleft
      · have hlength := congrArg List.length hright
        rw [List.length_take] at hlength
        omega
  · rename_i hlong
    rw [List.take_length]
    constructor
    · exact fun h => Or.inr h.symm
    · rintro (hleft | hright)
      · have hlength := congrArg List.length hleft
        rw [List.length_take] at hlength
        have hsame : a.length = b.length := by omega
        rw [← hsame, List.take_length, hleft, hsame, List.take_length]
      · exact hright.symm

/-! ## Searching -/

def strchr (s : CStr) (c : UInt8) : Option CStr :=
  match s with
  | [] => none
  | b :: rest => if b = c then some (b :: rest) else strchr rest c

theorem strchr_append {a : CStr} {c : UInt8} (h : c ∉ a) (rest : CStr) :
    strchr (a ++ c :: rest) c = some (c :: rest) := by
  induction a with
  | nil => rw [List.nil_append, strchr, if_pos rfl]
  | cons b a ih =>
      rw [List.mem_cons, not_or] at h
      rw [List.cons_append, strchr, if_neg (Ne.symm h.1)]
      exact ih h.2

theorem strchr_of_not_mem {s : CStr} {c : UInt8} (h : c ∉ s) : strchr s c = none := by
  induction s with
  | nil => rfl
  | cons b rest ih =>
      rw [List.mem_cons, not_or] at h
      rw [strchr, if_neg (Ne.symm h.1)]
      exact ih h.2

theorem strchr_of_mem {s : CStr} {c : UInt8} (h : c ∈ s) :
    strchr s c = some (s.dropWhile (· ≠ c)) := by
  induction s with
  | nil => contradiction
  | cons b s ih =>
      by_cases hb : b = c
      · rw [strchr, if_pos hb, List.dropWhile_cons_of_neg (by simp [hb])]
      · rw [strchr, if_neg hb, List.dropWhile_cons_of_pos (by simp [hb])]
        exact ih ((List.mem_cons.mp h).resolve_left (Ne.symm hb))

def strrchr (s : CStr) (c : UInt8) : Option CStr :=
  match s with
  | [] => none
  | b :: rest => (strrchr rest c).or (if b = c then some (b :: rest) else none)

theorem take_sub_length_dropWhile (p : UInt8 → Bool) (s : CStr) :
    s.take (s.length - (s.dropWhile p).length) = s.takeWhile p := by
  have hsplit : s.takeWhile p ++ s.dropWhile p = s := List.takeWhile_append_dropWhile
  have hlength := congrArg List.length hsplit
  rw [List.length_append] at hlength
  rw [← hlength, Nat.add_sub_cancel]
  exact (List.prefix_iff_eq_take.mp (List.takeWhile_prefix p)).symm

/-- What stands before the first `c`, and what stands behind it. -/
theorem append_cons_inj {a b r r' : CStr} {c : UInt8} (ha : c ∉ a) (hb : c ∉ b)
    (h : a ++ c :: r = b ++ c :: r') : a = b ∧ r = r' := by
  have htail : some (c :: r) = some (c :: r') := by
    rw [← strchr_append ha r, h, strchr_append hb]
  have hr : r = r' := (List.cons.inj (Option.some.inj htail)).2
  rw [hr] at h
  exact ⟨List.append_cancel_right h, hr⟩

/-- What stands behind the last `c`, and what stands before it. -/
theorem append_cons_inj_last {a b r r' : CStr} {c : UInt8} (ha : c ∉ a) (hb : c ∉ b)
    (h : r ++ c :: a = r' ++ c :: b) : r = r' ∧ a = b := by
  have hrev : a.reverse ++ c :: r.reverse = b.reverse ++ c :: r'.reverse := by
    simpa using congrArg List.reverse h
  obtain ⟨hab, hr⟩ := append_cons_inj (by simpa using ha) (by simpa using hb) hrev
  exact ⟨List.reverse_inj.mp hr, List.reverse_inj.mp hab⟩

/-- `strstr`: the suffix that starts at the first occurrence of `needle`. -/
def strstr (s needle : CStr) : Option CStr :=
  if needle.isPrefixOf s then some s
  else match s with
    | [] => none
    | _ :: rest => strstr rest needle

theorem strstr_eq_self {s needle : CStr} (h : needle <+: s) : strstr s needle = some s := by
  rw [strstr.eq_def, if_pos (List.isPrefixOf_iff_prefix.mpr h)]

theorem strstr_cons_eq_tail {b : UInt8} {s needle : CStr} (h : ¬needle <+: b :: s) :
    strstr (b :: s) needle = strstr s needle := by
  rw [← List.isPrefixOf_iff_prefix] at h
  rw [strstr, if_neg h]

theorem strstr_cons_of_ne {b c : UInt8} (h : b ≠ c) (s needle : CStr) :
    strstr (b :: s) (c :: needle) = strstr s (c :: needle) := by
  apply strstr_cons_eq_tail
  rw [List.cons_prefix_cons]
  exact fun hstart => h hstart.1.symm

/-- A needle is not found where its first byte does not occur. -/
theorem strstr_append_of_not_mem {a : CStr} {c : UInt8} (h : c ∉ a) (s needle : CStr) :
    strstr (a ++ s) (c :: needle) = strstr s (c :: needle) := by
  induction a with
  | nil => rfl
  | cons b a ih =>
      rw [List.mem_cons, not_or] at h
      rw [List.cons_append, strstr_cons_of_ne (Ne.symm h.1)]
      exact ih h.2

theorem strstr_length {s needle r : CStr} (h : strstr s needle = some r) :
    needle.length ≤ s.length := by
  induction s with
  | nil =>
      rw [strstr] at h
      split at h
      · rename_i hstart
        simpa using hstart
      · contradiction
  | cons b s ih =>
      rw [strstr] at h
      split at h
      · rename_i hstart
        exact (List.isPrefixOf_iff_prefix.mp hstart).length_le
      · exact Nat.le_succ_of_le (ih h)

theorem strstr_length_le {s needle r : CStr} (h : strstr s needle = some r) :
    r.length ≤ s.length := by
  induction s with
  | nil =>
      rw [strstr] at h
      split at h
      · cases h
        exact Nat.le_refl _
      · contradiction
  | cons b s ih =>
      rw [strstr] at h
      split at h
      · cases h
        exact Nat.le_refl _
      · exact Nat.le_succ_of_le (ih h)

theorem strstr_append {s needle r : CStr} (h : strstr s needle = some r) (t : CStr) :
    strstr (s ++ t) needle = some (r ++ t) := by
  induction s with
  | nil =>
      rw [strstr] at h
      split at h
      · rename_i hstart
        cases h
        have hnil : needle = [] := by simpa using hstart
        subst hnil
        cases t <;> rfl
      · contradiction
  | cons b s ih =>
      rw [strstr] at h
      rw [List.cons_append, strstr]
      by_cases hstart : needle.isPrefixOf (b :: s) = true
      · rw [if_pos hstart] at h
        cases h
        have hmore : needle.isPrefixOf (b :: (s ++ t)) = true := by
          rw [List.isPrefixOf_iff_prefix] at hstart ⊢
          exact hstart.trans (List.prefix_append (b :: s) t)
        rw [if_pos hmore]
        rfl
      · rw [if_neg hstart] at h
        have hrest := ih h
        by_cases hmore : needle.isPrefixOf (b :: (s ++ t)) = true
        · -- An earlier occurrence would overlap the end of `s`, and `r` is long enough.
          exfalso
          apply hstart
          have hlength : needle.length ≤ s.length := strstr_length h
          rw [List.isPrefixOf_iff_prefix] at hmore ⊢
          exact List.prefix_of_prefix_length_le hmore (List.prefix_append (b :: s) t)
            (Nat.le_succ_of_le hlength)
        · rw [if_neg hmore]
          exact hrest

theorem strstr_isSome_left {s a b : CStr} (h : (strstr s (a ++ b)).isSome) :
    (strstr s a).isSome := by
  induction s with
  | nil =>
      rw [strstr] at h ⊢
      split at h
      · rename_i hstart
        have hnil : a = [] := by
          have hab : a ++ b = [] := by simpa using hstart
          exact (List.append_eq_nil_iff.mp hab).1
        subst hnil
        rfl
      · contradiction
  | cons c s ih =>
      rw [strstr] at h ⊢
      by_cases hstart : a.isPrefixOf (c :: s) = true
      · rw [if_pos hstart]
        rfl
      · have hneg : ¬ (a ++ b).isPrefixOf (c :: s) = true := by
          intro hab
          apply hstart
          rw [List.isPrefixOf_iff_prefix] at hab ⊢
          exact (List.prefix_append a b).trans hab
        rw [if_neg hneg] at h
        rw [if_neg hstart]
        exact ih h

/-! ## Comparing -/

def toLower (b : UInt8) : UInt8 := if 65 ≤ b ∧ b ≤ 90 then b + 32 else b

def strcmp : CStr → CStr → Int
  | [], [] => 0
  | [], b :: _ => -b.toNat
  | a :: _, [] => a.toNat
  | a :: s, b :: t => if a = b then strcmp s t else a.toNat - b.toNat

theorem strcmp_self (s : CStr) : strcmp s s = 0 := by
  induction s with
  | nil => rfl
  | cons a s ih => rw [strcmp, if_pos rfl, ih]

/-- Behind texts of one length the comparison goes on only where they agree. -/
theorem strcmp_append {s t : CStr} (h : s.length = t.length) (s' t' : CStr) :
    strcmp (s ++ s') (t ++ t') = if s = t then strcmp s' t' else strcmp s t := by
  induction s generalizing t with
  | nil =>
      rw [List.length_nil, eq_comm, List.length_eq_zero_iff] at h
      rw [h, if_pos rfl]
      rfl
  | cons a s ih =>
      cases t with
      | nil => cases h
      | cons b t =>
          have hlength : s.length = t.length := Nat.succ.inj h
          rw [List.cons_append, List.cons_append, strcmp, strcmp, ih hlength]
          by_cases hab : a = b
          · rw [if_pos hab, if_pos hab, hab]
            simp only [List.cons.injEq, true_and]
          · rw [if_neg hab, if_neg hab, if_neg (fun heq => hab (List.cons.inj heq).1)]

theorem strcmp_swap (s t : CStr) : strcmp t s = -strcmp s t := by
  induction s generalizing t with
  | nil =>
      cases t with
      | nil => rfl
      | cons b t => exact (Int.neg_neg _).symm
  | cons a s ih =>
      cases t with
      | nil => rfl
      | cons b t =>
          by_cases hab : a = b
          · rw [strcmp, strcmp, if_pos hab, if_pos hab.symm, ih]
          · rw [strcmp, strcmp, if_neg hab, if_neg (Ne.symm hab), Int.neg_sub]

theorem strcmp_neg_iff {s t : CStr} (ht : ∀ b ∈ t, b ≠ 0) :
    strcmp s t < 0 ↔ s.map UInt8.toNat < t.map UInt8.toNat := by
  induction s generalizing t with
  | nil =>
      cases t with
      | nil => simp [strcmp]
      | cons b t =>
          have hb : b.toNat ≠ 0 := fun h => ht b List.mem_cons_self (UInt8.toNat_inj.mp h)
          rw [strcmp]
          exact iff_of_true (by omega) (List.nil_lt_cons _ _)
  | cons a s ih =>
      cases t with
      | nil =>
          rw [strcmp]
          exact iff_of_false (by omega) (List.not_lt_nil _)
      | cons b t =>
          have ht' : ∀ x ∈ t, x ≠ 0 := fun x hx => ht x (List.mem_cons_of_mem _ hx)
          rw [strcmp, List.map_cons, List.map_cons, List.cons_lt_cons_iff, ← ih ht',
            UInt8.toNat_inj]
          split
          · next hab => simp [hab]
          · next hab =>
              rw [sub_neg, Int.ofNat_lt, or_iff_left (fun h => hab h.1)]

def strcasecmpEq (s t : CStr) : Bool := s.map toLower == t.map toLower

/-! ## Tokenising -/

/-- One call of `strtok_r` (or of its two-argument `strtok_s` variant): the next
token, and what the save pointer refers to afterwards. -/
def strtok (delim : UInt8 → Bool) (s : CStr) : Option CStr × CStr :=
  match s.dropWhile delim with
  | [] => (none, [])
  | b :: rest =>
      (some ((b :: rest).takeWhile fun x => !delim x),
        ((b :: rest).dropWhile fun x => !delim x).tail)

def pieces (delim : UInt8 → Bool) (s : CStr) : List CStr :=
  (s.splitOnP delim).filter (· ≠ [])

@[simp] theorem pieces_nil (delim : UInt8 → Bool) : pieces delim [] = [] := by
  simp [pieces]

theorem pieces_cons_delim {delim : UInt8 → Bool} {b : UInt8} (hb : delim b = true)
    (s : CStr) : pieces delim (b :: s) = pieces delim s := by
  simp [pieces, List.splitOnP_cons_eq_if_modifyHead, hb]

theorem pieces_dropWhile (delim : UInt8 → Bool) (s : CStr) :
    pieces delim (s.dropWhile delim) = pieces delim s := by
  induction s with
  | nil => rfl
  | cons b s ih =>
      by_cases hb : delim b = true
      · rw [List.dropWhile_cons_of_pos hb, ih, pieces_cons_delim hb]
      · rw [List.dropWhile_cons_of_neg hb]

theorem pieces_append {delim : UInt8 → Bool} {t rest : CStr} {d : UInt8}
    (ht : ∀ x ∈ t, delim x = false) (hne : t ≠ []) (hd : delim d = true) :
    pieces delim (t ++ d :: rest) = t :: pieces delim rest := by
  rw [pieces, List.splitOnP_append_cons_of_forall_mem ht _ hd,
    List.filter_cons_of_pos (by simpa using hne)]
  rfl

theorem pieces_single {delim : UInt8 → Bool} {t : CStr}
    (ht : ∀ x ∈ t, delim x = false) (hne : t ≠ []) : pieces delim t = [t] := by
  rw [pieces, List.splitOnP_eq_singleton ht, List.filter_cons_of_pos (by simpa using hne)]
  rfl

/-- The first piece of a string that starts with a token byte, and the pieces
after it. -/
theorem pieces_cons_token {delim : UInt8 → Bool} {b : UInt8} {rest : CStr}
    (hb : delim b = false) :
    pieces delim (b :: rest) = (b :: rest).takeWhile (fun x => !delim x) ::
      pieces delim ((b :: rest).dropWhile fun x => !delim x).tail := by
  have hfree : ∀ x ∈ (b :: rest).takeWhile (fun x => !delim x), delim x = false :=
    fun x hx => by simpa using List.mem_takeWhile_imp hx
  have hne : (b :: rest).takeWhile (fun x => !delim x) ≠ [] := by simp [hb]
  have hsplit : (b :: rest).takeWhile (fun x => !delim x) ++
      (b :: rest).dropWhile (fun x => !delim x) = b :: rest :=
    List.takeWhile_append_dropWhile
  have hlast := List.head?_dropWhile_not (fun x => !delim x) (b :: rest)
  cases hd : (b :: rest).dropWhile fun x => !delim x with
  | nil =>
      rw [hd, List.append_nil] at hsplit
      rw [hsplit] at hfree hne ⊢
      rw [pieces_single hfree hne]
      simp
  | cons d tail =>
      have hdelim : delim d = true := by simpa [hd] using hlast
      rw [hd] at hsplit
      conv_lhs => rw [← hsplit]
      rw [pieces_append hfree hne hdelim, List.tail_cons]

theorem pieces_append_delim {delim : UInt8 → Bool} {d : UInt8} (hd : delim d = true)
    (s rest : CStr) : pieces delim (s ++ d :: rest) = pieces delim s ++ pieces delim rest := by
  induction hn : s.length using Nat.strongRecOn generalizing s with
  | ind n ih =>
      subst hn
      cases s with
      | nil => rw [List.nil_append, pieces_cons_delim hd, pieces_nil, List.nil_append]
      | cons b s =>
          by_cases hb : delim b = true
          · rw [List.cons_append, pieces_cons_delim hb, pieces_cons_delim hb,
              ih s.length (Nat.lt_succ_self _) s rfl]
          · have hsplit : (b :: s).takeWhile (fun x => !delim x) ++
                (b :: s).dropWhile (fun x => !delim x) = b :: s :=
              List.takeWhile_append_dropWhile
            have hfree : ∀ x ∈ (b :: s).takeWhile (fun x => !delim x), delim x = false :=
              fun x hx => by simpa using List.mem_takeWhile_imp hx
            have hne : (b :: s).takeWhile (fun x => !delim x) ≠ [] := by simp [hb]
            have hlast := List.head?_dropWhile_not (fun x => !delim x) (b :: s)
            generalize (b :: s).takeWhile (fun x => !delim x) = t at hsplit hfree hne
            generalize (b :: s).dropWhile (fun x => !delim x) = u at hsplit hlast
            rw [← hsplit]
            cases u with
            | nil =>
                rw [List.append_nil, pieces_append hfree hne hd, pieces_single hfree hne]
                rfl
            | cons e u =>
                have he : delim e = true := by simpa using hlast
                have hlt : u.length < (b :: s).length := by
                  rw [← hsplit, List.length_append, List.length_cons]
                  omega
                rw [List.append_assoc, List.cons_append, pieces_append hfree hne he,
                  pieces_append hfree hne he, ih u.length hlt u rfl, List.cons_append]

/-- A piece is a non-empty part of the string without delimiters. -/
theorem mem_pieces {delim : UInt8 → Bool} {s t : CStr} (h : t ∈ pieces delim s) :
    t ≠ [] ∧ (∀ x ∈ t, delim x = false) ∧ t.Sublist s := by
  induction hn : s.length using Nat.strongRecOn generalizing s with
  | ind n ih =>
      subst hn
      cases s with
      | nil => exact absurd h (by simp)
      | cons b rest =>
          by_cases hb : delim b = true
          · rw [pieces_cons_delim hb] at h
            obtain ⟨hne, hfree, hsub⟩ := ih rest.length (Nat.lt_succ_self _) h rfl
            exact ⟨hne, hfree, hsub.cons b⟩
          · have hfirst : (!delim b) = true := by simpa using hb
            rw [pieces_cons_token (by simpa using hb)] at h
            rcases List.mem_cons.mp h with rfl | h
            · refine ⟨by simp [hfirst], fun x hx => ?_, List.takeWhile_sublist _⟩
              simpa using List.mem_takeWhile_imp hx
            · have hdrop : (b :: rest).dropWhile (fun x => !delim x) =
                  rest.dropWhile fun x => !delim x := by simp [hb]
              rw [hdrop] at h
              have hsub : (rest.dropWhile fun x => !delim x).tail.Sublist rest :=
                (List.tail_sublist _).trans (List.dropWhile_sublist _)
              obtain ⟨hne, hfree, hpiece⟩ := ih _ (Nat.lt_succ_of_le hsub.length_le) h rfl
              exact ⟨hne, hfree, (hpiece.trans hsub).cons b⟩

/-- `strtok` returns the first piece and leaves the others for the next calls. -/
theorem strtok_eq_pieces (delim : UInt8 → Bool) (s : CStr) :
    (strtok delim s).1 = (pieces delim s).head? ∧
      pieces delim (strtok delim s).2 = (pieces delim s).tail := by
  rw [← pieces_dropWhile delim s]
  have hhead := List.head?_dropWhile_not delim s
  unfold strtok
  cases hs : s.dropWhile delim with
  | nil => simp
  | cons b rest =>
      have hb : delim b = false := by simpa [hs] using hhead
      rw [pieces_cons_token hb]
      exact ⟨rfl, rfl⟩

theorem strtok_fst (delim : UInt8 → Bool) (s : CStr) :
    (strtok delim s).1 = (pieces delim s)[0]? := by
  rw [(strtok_eq_pieces delim s).1, List.head?_eq_getElem?]

theorem strtok_snd (delim : UInt8 → Bool) (s : CStr) :
    (strtok delim (strtok delim s).2).1 = (pieces delim s)[1]? := by
  rw [strtok_fst, (strtok_eq_pieces delim s).2, List.getElem?_tail]

theorem strtok_thd (delim : UInt8 → Bool) (s : CStr) :
    (strtok delim (strtok delim (strtok delim s).2).2).1 = (pieces delim s)[2]? := by
  rw [strtok_snd, (strtok_eq_pieces delim s).2, List.getElem?_tail]

theorem strtok_fourth (delim : UInt8 → Bool) (s : CStr) :
    (strtok delim (strtok delim (strtok delim (strtok delim s).2).2).2).1 =
      (pieces delim s)[3]? := by
  rw [strtok_thd, (strtok_eq_pieces delim s).2, List.getElem?_tail]

theorem exists_of_pieces_eq_cons {delim : UInt8 → Bool} {s t : CStr} {ts : List CStr}
    (h : pieces delim s = t :: ts) :
    ∃ before after, s = before ++ t ++ after ∧ pieces delim after.tail = ts := by
  have hhead := List.head?_dropWhile_not delim s
  have hsplit : s.takeWhile delim ++ s.dropWhile delim = s :=
    List.takeWhile_append_dropWhile
  rw [← pieces_dropWhile] at h
  cases hs : s.dropWhile delim with
  | nil => rw [hs, pieces_nil] at h; cases h
  | cons b rest =>
      have hb : delim b = false := by simpa [hs] using hhead
      rw [hs, pieces_cons_token hb, List.cons.injEq] at h
      obtain ⟨rfl, hts⟩ := h
      refine ⟨s.takeWhile delim, (b :: rest).dropWhile fun x => !delim x, ?_, hts⟩
      rw [List.append_assoc, List.takeWhile_append_dropWhile, ← hs, hsplit]

/-- Two pieces and the delimiter between them fit into the string. -/
theorem length_add_length_lt_of_pieces {delim : UInt8 → Bool} {s t u : CStr}
    {ts : List CStr} (h : pieces delim s = t :: u :: ts) :
    t.length + u.length < s.length := by
  obtain ⟨before, after, rfl, hafter⟩ := exists_of_pieces_eq_cons h
  obtain ⟨before', after', htail, -⟩ := exists_of_pieces_eq_cons hafter
  cases after with
  | nil => rw [List.tail_nil, pieces_nil] at hafter; cases hafter
  | cons d rest =>
      rw [List.tail_cons] at htail
      simp only [htail, List.length_append, List.length_cons]
      omega

/-! ## Numbers -/

def isSpace (b : UInt8) : Bool := b = 32 || (9 ≤ b && b ≤ 13)

/-- A `%s` conversion of `sscanf` with a width: the field and what is left of the input. -/
def scanField (width : Nat) (s : CStr) : Option (CStr × CStr) :=
  let field := ((s.dropWhile isSpace).takeWhile fun b => !isSpace b).take width
  if field = [] then none else some (field, (s.dropWhile isSpace).drop field.length)

def isDigit (b : UInt8) : Bool := 48 ≤ b && b ≤ 57

def digitsPrefix (s : CStr) : Nat :=
  (s.takeWhile isDigit).foldl (fun acc b => acc * 10 + (b.toNat - 48)) 0

/-- What the `strtol` family reads in base ten: blanks, a sign, digits. -/
def scanInt (s : CStr) : Int :=
  match s.dropWhile isSpace with
  | [] => 0
  | b :: rest =>
      if b = 45 then -(digitsPrefix rest : Int)
      else if b = 43 then digitsPrefix rest
      else digitsPrefix (b :: rest)

def atoll (s : CStr) : Int := max (-2 ^ 63) (min (2 ^ 63 - 1) (scanInt s))

def atoi (s : CStr) : Int := (atoll s + 2 ^ 31) % 2 ^ 32 - 2 ^ 31

/-- A `%lld` conversion of `sscanf`: the number and what is left of the input. -/
def scanLld (s : CStr) : Option (Int × CStr) :=
  let body := s.dropWhile isSpace
  let digits := if body.head? = some 45 ∨ body.head? = some 43 then body.tail else body
  if digits.head?.any isDigit then some (atoll s, digits.dropWhile isDigit) else none

def strtoul (s : CStr) : Nat :=
  if 2 ^ 64 ≤ (scanInt s).natAbs then 2 ^ 64 - 1 else ((scanInt s) % 2 ^ 64).toNat

def hexDigit (b : UInt8) : Option Nat :=
  if isDigit b then some (b.toNat - 48)
  else if 97 ≤ b ∧ b ≤ 102 then some (b.toNat - 87)
  else if 65 ≤ b ∧ b ≤ 70 then some (b.toNat - 55)
  else none

def hexPrefix (s : CStr) : Nat :=
  ((s.map hexDigit).takeWhile Option.isSome).foldl (fun acc d => acc * 16 + d.getD 0) 0

/-- What `strtol` reads in base sixteen: blanks, a sign, `0x` in front of a digit, digits. -/
def scanHex (s : CStr) : Int :=
  let s := s.dropWhile isSpace
  let digits := if s.head? = some 45 ∨ s.head? = some 43 then s.tail else s
  let marked := digits.head? = some 48 ∧ digits.tail.head?.map toLower = some 120 ∧
    ((digits.drop 2).head?.bind hexDigit).isSome
  let value : Int := hexPrefix (if marked then digits.drop 2 else digits)
  if s.head? = some 45 then -value else value

def strtolHex (s : CStr) : Int := max (-2 ^ 63) (min (2 ^ 63 - 1) (scanHex s))

def decimal (n : Nat) : CStr :=
  if n = 0 then [48] else ((Nat.digits 10 n).map fun d => UInt8.ofNat (48 + d)).reverse

def hexPadded (n value : Nat) : CStr :=
  (List.range n).reverse.map fun i =>
    let digit := value / 16 ^ i % 16
    UInt8.ofNat (if digit < 10 then 48 + digit else 87 + digit)

def hexWide (n value : Nat) : CStr := hexPadded (max (Nat.digits 16 value).length n) value

def hexadecimal (n : Nat) : CStr := hexPadded (max (Nat.digits 16 n).length 1) n

def decimalInt (z : Int) : CStr :=
  if z < 0 then 45 :: decimal z.natAbs else decimal z.natAbs

theorem length_hexPadded (n value : Nat) : (hexPadded n value).length = n := by
  rw [hexPadded, List.length_map, List.length_reverse, List.length_range]

theorem hexPadded_succ (n value : Nat) :
    hexPadded (n + 1) value =
      UInt8.ofNat (if value / 16 ^ n % 16 < 10 then 48 + value / 16 ^ n % 16
        else 87 + value / 16 ^ n % 16) :: hexPadded n value := by
  simp only [hexPadded, List.range_succ, List.reverse_append, List.reverse_cons, List.reverse_nil,
    List.nil_append, List.singleton_append, List.map_cons]

theorem hexDigit_inj {a b : Nat} (ha : a < 16) (hb : b < 16)
    (h : UInt8.ofNat (if a < 10 then 48 + a else 87 + a) =
      UInt8.ofNat (if b < 10 then 48 + b else 87 + b)) : a = b := by
  have hall : ∀ a b : Fin 16, UInt8.ofNat (if a.val < 10 then 48 + a.val else 87 + a.val) =
      UInt8.ofNat (if b.val < 10 then 48 + b.val else 87 + b.val) → a = b := by decide
  exact congrArg Fin.val (hall ⟨a, ha⟩ ⟨b, hb⟩ h)

theorem hexPadded_inj {n a b : Nat} (h : hexPadded n a = hexPadded n b) :
    a % 16 ^ n = b % 16 ^ n := by
  induction n with
  | zero => rw [Nat.pow_zero, Nat.mod_one, Nat.mod_one]
  | succ n ih =>
      rw [hexPadded_succ, hexPadded_succ, List.cons.injEq] at h
      have hdigit := hexDigit_inj (Nat.mod_lt _ (by decide)) (Nat.mod_lt _ (by decide)) h.1
      rw [Nat.mod_pow_succ, Nat.mod_pow_succ, ih h.2, hdigit]

theorem hexWide_injective (n : Nat) : Function.Injective (hexWide n) := by
  intro a b h
  have hwidth := congrArg List.length h
  simp only [hexWide, length_hexPadded] at hwidth
  rw [hexWide, hexWide, hwidth] at h
  have hmod := hexPadded_inj h
  have hlt : ∀ m, m < 16 ^ max (Nat.digits 16 m).length n := fun m =>
    lt_of_lt_of_le (Nat.lt_base_pow_length_digits (by decide))
      (Nat.pow_le_pow_right (by decide) (le_max_left _ _))
  have ha := hlt a
  rw [hwidth] at ha
  rwa [Nat.mod_eq_of_lt ha, Nat.mod_eq_of_lt (hlt b)] at hmod

theorem length_hexWide_le {n k value : Nat} (hn : n ≤ k) (hvalue : value < 16 ^ k) :
    (hexWide n value).length ≤ k := by
  rw [hexWide, length_hexPadded]
  exact max_le ((Nat.digits_length_le_iff (by decide) value).mpr hvalue) hn

theorem not_isSpace_of_isDigit {b : UInt8} (hb : isDigit b = true) : isSpace b = false := by
  simp only [isDigit, isSpace, Bool.and_eq_true, decide_eq_true_eq, Bool.or_eq_false_iff,
    decide_eq_false_iff_not, Bool.and_eq_false_iff, UInt8.le_iff_toNat_le,
    ← UInt8.toNat_inj] at hb ⊢
  obtain ⟨hlo, -⟩ := hb
  change 48 ≤ b.toNat at hlo
  exact ⟨by change ¬b.toNat = 32; omega, .inr (by change ¬b.toNat ≤ 13; omega)⟩

theorem digit_toNat {n d : Nat} (hd : d ∈ Nat.digits 10 n) :
    (UInt8.ofNat (48 + d)).toNat = 48 + d := by
  have hlt : d < 10 := Nat.digits_lt_base (by omega) hd
  rw [UInt8.toNat_ofNat']
  exact Nat.mod_eq_of_lt (by omega)

theorem isDigit_of_mem_decimal {n : Nat} {b : UInt8} (hb : b ∈ decimal n) :
    isDigit b = true := by
  unfold decimal at hb
  split at hb
  · rw [List.mem_singleton] at hb
    subst hb
    decide
  · rw [List.mem_reverse, List.mem_map] at hb
    obtain ⟨d, hd, rfl⟩ := hb
    have hlt : d < 10 := Nat.digits_lt_base (by omega) hd
    have hval := digit_toNat hd
    simp only [isDigit, UInt8.le_iff_toNat_le, hval, Bool.and_eq_true, decide_eq_true_eq]
    exact ⟨Nat.le_add_right _ _, by change 48 + d ≤ 57; omega⟩

theorem decimal_ne_nil (n : Nat) : decimal n ≠ [] := by
  unfold decimal
  split
  · simp
  · rename_i hn
    simpa using Nat.digits_ne_nil_iff_ne_zero.2 hn

theorem head?_decimal_ne {n : Nat} (hn : n ≠ 0) : (decimal n).head? ≠ some 48 := by
  unfold decimal
  rw [if_neg hn, List.head?_reverse, List.getLast?_map]
  have hne : Nat.digits 10 n ≠ [] := Nat.digits_ne_nil_iff_ne_zero.2 hn
  rw [List.getLast?_eq_some_getLast hne, Option.map_some]
  intro heq
  have hlast := Nat.getLast_digit_ne_zero 10 hn
  have hval := digit_toNat (List.getLast_mem hne)
  rw [Option.some.inj heq] at hval
  change 48 = _ at hval
  omega

theorem length_decimal_le {n k : Nat} (hk : 0 < k) (hn : n < 10 ^ k) :
    (decimal n).length ≤ k := by
  unfold decimal
  split
  · exact hk
  · rw [List.length_reverse, List.length_map]
    exact (Nat.digits_length_le_iff (by omega) n).2 hn

theorem digitsPrefix_decimal (n : Nat) : digitsPrefix (decimal n) = n := by
  have hall : (decimal n).takeWhile isDigit = decimal n :=
    List.takeWhile_eq_self_iff.2 fun b hb => isDigit_of_mem_decimal hb
  rw [digitsPrefix, hall]
  unfold decimal
  split
  · rename_i hn
    rw [hn]
    rfl
  · rw [List.foldl_reverse, List.foldr_map]
    conv_rhs => rw [← Nat.ofDigits_digits 10 n, Nat.ofDigits_eq_foldr]
    apply List.foldr_ext
    intro d hd acc
    rw [digit_toNat hd, Nat.add_sub_cancel_left, Nat.cast_id]
    omega

theorem digitsPrefix_append {s rest : CStr} (hs : ∀ b ∈ s, isDigit b = true)
    (hrest : ∀ b ∈ rest.head?, isDigit b = false) : digitsPrefix (s ++ rest) = digitsPrefix s := by
  have hstop : rest.takeWhile isDigit = [] := by
    cases rest with
    | nil => rfl
    | cons b rest => exact List.takeWhile_cons_of_neg (by simp [hrest b rfl])
  rw [digitsPrefix, digitsPrefix, List.takeWhile_append_of_pos hs, hstop, List.append_nil,
    List.takeWhile_eq_self_iff.mpr hs]

theorem scanInt_digits_append {s rest : CStr} (hne : s ≠ []) (hs : ∀ b ∈ s, isDigit b = true)
    (hrest : ∀ b ∈ rest.head?, isDigit b = false) : scanInt (s ++ rest) = digitsPrefix s := by
  have hread := digitsPrefix_append hs hrest
  unfold scanInt
  cases s with
  | nil => exact absurd rfl hne
  | cons b tail =>
      have hb : isDigit b = true := hs b List.mem_cons_self
      -- a digit is neither a blank nor a sign
      have hminus : b ≠ 45 := by rintro rfl; exact absurd hb (by decide)
      have hplus : b ≠ 43 := by rintro rfl; exact absurd hb (by decide)
      rw [List.cons_append, List.dropWhile_cons_of_neg (by simp [not_isSpace_of_isDigit hb])]
      simp only [hminus, hplus, if_false]
      rw [← List.cons_append, hread]

theorem scanInt_minus_append {s rest : CStr} (hs : ∀ b ∈ s, isDigit b = true)
    (hrest : ∀ b ∈ rest.head?, isDigit b = false) :
    scanInt (45 :: (s ++ rest)) = -(digitsPrefix s : Int) := by
  rw [scanInt, List.dropWhile_cons_of_neg (by decide)]
  simp only [if_true, digitsPrefix_append hs hrest]

theorem scanInt_decimal (n : Nat) : scanInt (decimal n) = n := by
  have hdigits : ∀ b ∈ decimal n, isDigit b = true := fun b => isDigit_of_mem_decimal
  rw [← List.append_nil (decimal n), scanInt_digits_append (decimal_ne_nil n) hdigits (by simp),
    digitsPrefix_decimal]

theorem scanInt_decimalInt_append (z : Int) {rest : CStr}
    (hrest : ∀ b ∈ rest.head?, isDigit b = false) : scanInt (decimalInt z ++ rest) = z := by
  have hdigits : ∀ b ∈ decimal z.natAbs, isDigit b = true := fun b => isDigit_of_mem_decimal
  unfold decimalInt
  split
  · rw [List.cons_append, scanInt_minus_append hdigits hrest, digitsPrefix_decimal]
    omega
  · rw [scanInt_digits_append (decimal_ne_nil _) hdigits hrest, digitsPrefix_decimal]
    omega

theorem decimalInt_injective : Function.Injective decimalInt := by
  intro z z' h
  have hz : scanInt (decimalInt z ++ []) = z := scanInt_decimalInt_append z (by simp)
  rw [h, scanInt_decimalInt_append z' (by simp)] at hz
  exact hz.symm

theorem decimal_injective : Function.Injective decimal := by
  intro n n' h
  rw [← digitsPrefix_decimal n, h, digitsPrefix_decimal]

theorem isDigit_of_mem_decimalInt {z : Int} {b : UInt8} (hb : b ∈ decimalInt z) :
    b = 45 ∨ isDigit b = true := by
  unfold decimalInt at hb
  split at hb
  · rcases List.mem_cons.mp hb with hminus | hdigit
    · exact .inl hminus
    · exact .inr (isDigit_of_mem_decimal hdigit)
  · exact .inr (isDigit_of_mem_decimal hb)

theorem length_decimalInt_le {z : Int} {k : Nat} (hk : 0 < k) (hz : z.natAbs < 10 ^ k) :
    (decimalInt z).length ≤ k + 1 := by
  have hlength := length_decimal_le hk hz
  unfold decimalInt
  split
  · exact Nat.succ_le_succ hlength
  · exact Nat.le_succ_of_le hlength

theorem atoll_decimal {n : Nat} (hn : n < 2 ^ 63) : atoll (decimal n) = n := by
  unfold atoll
  rw [scanInt_decimal]
  omega

theorem atoll_decimalInt_append {z : Int} (hlo : -2 ^ 63 ≤ z) (hhi : z < 2 ^ 63) {rest : CStr}
    (hrest : ∀ b ∈ rest.head?, isDigit b = false) : atoll (decimalInt z ++ rest) = z := by
  unfold atoll
  rw [scanInt_decimalInt_append z hrest]
  omega

theorem strtoul_decimal {n : Nat} (hn : n < 2 ^ 64) : strtoul (decimal n) = n := by
  unfold strtoul
  rw [scanInt_decimal, if_neg (by simpa using hn)]
  omega

/-! ## Lines -/

/-- What the calls of `fgets` with a buffer of this size return, when `line` was read since the
last one. -/
def fgetsAll (size : Nat) : List UInt8 → List UInt8 → List (List UInt8)
  | line, [] => if line = [] then [] else [line]
  | line, b :: rest =>
      if b = 10 ∨ (line ++ [b]).length = size - 1 then (line ++ [b]) :: fgetsAll size [] rest
      else fgetsAll size (line ++ [b]) rest

theorem fgetsAll_append {size : Nat} {body : List UInt8} (hbody : 10 ∉ body)
    (line rest : List UInt8) (hlength : (line ++ body).length + 1 < size) :
    fgetsAll size line (body ++ 10 :: rest) =
      (line ++ body ++ [10]) :: fgetsAll size [] rest := by
  induction body generalizing line with
  | nil => rw [List.nil_append, fgetsAll, if_pos (Or.inl rfl), List.append_nil]
  | cons b body ih =>
      rw [List.mem_cons, not_or] at hbody
      have hmore : ¬(b = 10 ∨ (line ++ [b]).length = size - 1) := by
        rw [not_or]
        simp only [List.length_append, List.length_cons, List.length_nil] at hlength ⊢
        exact ⟨Ne.symm hbody.1, by omega⟩
      have hmoved : line ++ [b] ++ body = line ++ b :: body := by
        rw [List.append_assoc, List.singleton_append]
      rw [List.cons_append, fgetsAll, if_neg hmore, ih hbody.2, hmoved]
      rw [hmoved]
      exact hlength

end MiniBackend.Lib.CString
