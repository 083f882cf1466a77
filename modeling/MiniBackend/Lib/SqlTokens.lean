import Mathlib.Algebra.Order.BigOperators.Group.List
import MiniBackend.Lib.CString

/-!
# The tokens of an SQL text

Words, string literals and other characters.  A literal stands between apostrophes, and an
apostrophe in it is doubled.  The scanner goes byte by byte, so that a text can be scanned
piece by piece.
-/

namespace MiniBackend.Lib.SqlTokens

open MiniBackend.Lib.CString

/-- `word` stands for names, keywords and numbers. -/
inductive Token
  | word (text : CStr)
  | literal (content : CStr)
  | symbol (b : UInt8)
deriving DecidableEq

/-- Where the scanner is; `apostrophe` is behind an apostrophe that ends the literal unless
another one follows. -/
inductive Mode
  | gap
  | word (text : CStr)
  | literal (content : CStr)
  | apostrophe (content : CStr)
deriving DecidableEq

def isWordByte (b : UInt8) : Bool :=
  b == 95 || (48 ≤ b && b ≤ 57) || (65 ≤ b && b ≤ 90) || (97 ≤ b && b ≤ 122)

/-- A byte that does not continue what stands before it. -/
def startToken (tokens : List Token) (b : UInt8) : Mode × List Token :=
  if isSpace b then (.gap, tokens)
  else if b = 39 then (.literal [], tokens)
  else if isWordByte b then (.word [b], tokens)
  else (.gap, tokens ++ [.symbol b])

def scan : Mode × List Token → UInt8 → Mode × List Token
  | (.gap, tokens), b => startToken tokens b
  | (.word text, tokens), b =>
      if isWordByte b then (.word (text ++ [b]), tokens) else startToken (tokens ++ [.word text]) b
  | (.literal content, tokens), b =>
      if b = 39 then (.apostrophe content, tokens) else (.literal (content ++ [b]), tokens)
  | (.apostrophe content, tokens), b =>
      if b = 39 then (.literal (content ++ [39]), tokens)
      else startToken (tokens ++ [.literal content]) b

def finish : Mode × List Token → Option (List Token)
  | (.gap, tokens) => some tokens
  | (.word text, tokens) => some (tokens ++ [.word text])
  | (.literal _, _) => none
  | (.apostrophe content, tokens) => some (tokens ++ [.literal content])

def scanAll (s : CStr) (st : Mode × List Token) : Mode × List Token := s.foldl scan st

def sqlTokens (s : CStr) : Option (List Token) := finish (scanAll s (.gap, []))

def literals (tokens : List Token) : List CStr :=
  tokens.filterMap fun
    | .literal content => some content
    | .word _ | .symbol _ => none

def Token.shape : Token → Token
  | .literal _ => .literal []
  | .word text => .word text
  | .symbol b => .symbol b

@[simp] theorem literals_append (tokens tokens' : List Token) :
    literals (tokens ++ tokens') = literals tokens ++ literals tokens' := List.filterMap_append ..

@[simp] theorem literals_word (text : CStr) : literals [.word text] = [] := rfl

@[simp] theorem literals_symbol (b : UInt8) : literals [.symbol b] = [] := rfl

@[simp] theorem literals_literal (content : CStr) : literals [.literal content] = [content] := rfl

theorem scanAll_append (s t : CStr) (st : Mode × List Token) :
    scanAll (s ++ t) st = scanAll t (scanAll s st) := List.foldl_append

/-! ## Pieces -/

theorem startToken_prefix (before tokens : List Token) (b : UInt8) :
    startToken (before ++ tokens) b =
      ((startToken tokens b).1, before ++ (startToken tokens b).2) := by
  unfold startToken
  split
  · rfl
  · split
    · rfl
    · split
      · rfl
      · rw [List.append_assoc]

theorem scan_prefix (before tokens : List Token) (mode : Mode) (b : UInt8) :
    scan (mode, before ++ tokens) b =
      ((scan (mode, tokens) b).1, before ++ (scan (mode, tokens) b).2) := by
  cases mode with
  | gap => exact startToken_prefix before tokens b
  | word text =>
      rw [scan, scan]
      split
      · rfl
      · rw [List.append_assoc]
        exact startToken_prefix before _ b
  | literal content =>
      rw [scan, scan]
      split <;> rfl
  | apostrophe content =>
      rw [scan, scan]
      split
      · rfl
      · rw [List.append_assoc]
        exact startToken_prefix before _ b

/-- Tokens that have been found are not touched again. -/
theorem scanAll_prefix (before : List Token) (s : CStr) (mode : Mode) (tokens : List Token) :
    scanAll s (mode, before ++ tokens) =
      ((scanAll s (mode, tokens)).1, before ++ (scanAll s (mode, tokens)).2) := by
  induction s generalizing mode tokens with
  | nil => rfl
  | cons b s ih =>
      rw [scanAll, List.foldl_cons, scan_prefix, ← scanAll, ih]
      rfl

theorem finish_prefix (before tokens : List Token) (mode : Mode) :
    finish (mode, before ++ tokens) = (finish (mode, tokens)).map (before ++ ·) := by
  cases mode <;> simp [finish]

/-- A text can be cut where the scanner is between two tokens. -/
theorem sqlTokens_append {s : CStr} {before : List Token}
    (hs : scanAll s (.gap, []) = (.gap, before)) (t : CStr) :
    sqlTokens (s ++ t) = (sqlTokens t).map (before ++ ·) := by
  rw [sqlTokens, scanAll_append, hs, ← List.append_nil before, scanAll_prefix, finish_prefix,
    List.append_nil]
  rfl

def IdentifierLike (name : CStr) : Prop := name ≠ [] ∧ ∀ b ∈ name, isWordByte b = true

instance (name : CStr) : Decidable (IdentifierLike name) :=
  inferInstanceAs (Decidable (_ ∧ ∀ b ∈ name, _))

theorem not_special_of_isWordByte {b : UInt8} (hb : isWordByte b = true) :
    isSpace b = false ∧ b ≠ 39 := by
  refine forall_byte (motive := fun b => isWordByte b = true → isSpace b = false ∧ b ≠ 39) ?_ b hb
  decide +kernel

theorem IdentifierLike.apostrophe_not_mem {name : CStr} (h : IdentifierLike name) : 39 ∉ name :=
  fun hmem => (not_special_of_isWordByte (h.2 39 hmem)).2 rfl

theorem IdentifierLike.strncpy {name : CStr} (h : IdentifierLike name) {n : Nat} (hn : 0 < n) :
    IdentifierLike (strncpy name n) := by
  refine ⟨fun hnil => ?_, fun b hb => h.2 b (List.mem_of_mem_take hb)⟩
  rcases List.take_eq_nil_iff.mp hnil with hzero | hname
  · omega
  · exact h.1 hname

theorem scanAll_word {text word : CStr} (hword : ∀ b ∈ word, isWordByte b = true)
    (tokens : List Token) :
    scanAll word (.word text, tokens) = (.word (text ++ word), tokens) := by
  induction word generalizing text with
  | nil => rw [List.append_nil]; rfl
  | cons b word ih =>
      obtain ⟨hb, hword⟩ := List.forall_mem_cons.mp hword
      rw [scanAll, List.foldl_cons, scan, if_pos hb, ← scanAll, ih hword, List.append_assoc]
      rfl

theorem scanAll_name {name : CStr} (h : IdentifierLike name) :
    scanAll (name ++ [32]) (.gap, []) = (.gap, [.word name]) := by
  cases name with
  | nil => exact absurd rfl h.1
  | cons b name =>
      obtain ⟨hb, hname⟩ := List.forall_mem_cons.mp h.2
      obtain ⟨hspace, happ⟩ := not_special_of_isWordByte hb
      have hstart : scan (.gap, []) b = (.word [b], []) := by
        rw [scan, startToken, if_neg (by simp [hspace]), if_neg happ, if_pos hb]
      have hcons : b :: name ++ [32] = [b] ++ (name ++ [32]) := rfl
      rw [hcons, scanAll_append, scanAll_append]
      change scanAll [32] (scanAll name (scan (.gap, []) b)) = _
      rw [hstart, scanAll_word hname]
      rfl

/-! ## Text without apostrophes -/

def Calm : Mode → Prop
  | .gap | .word _ => True
  | .literal _ | .apostrophe _ => False

theorem Calm.finish {mode : Mode} (h : Calm mode) (tokens : List Token) :
    ∃ more, finish (mode, tokens) = some (tokens ++ more) ∧ literals more = [] := by
  cases mode with
  | gap => exact ⟨[], by rw [List.append_nil]; rfl, rfl⟩
  | word text => exact ⟨[.word text], rfl, rfl⟩
  | literal content => exact absurd h (by simp [Calm])
  | apostrophe content => exact absurd h (by simp [Calm])

theorem scanAll_plain {s : CStr} (hs : 39 ∉ s) {mode : Mode} (hmode : Calm mode)
    (tokens : List Token) :
    Calm (scanAll s (mode, tokens)).1 ∧
      literals (scanAll s (mode, tokens)).2 = literals tokens := by
  induction s generalizing mode tokens with
  | nil => exact ⟨hmode, rfl⟩
  | cons b s ih =>
      rw [List.mem_cons, not_or] at hs
      have hstart : ∀ tokens, Calm (startToken tokens b).1 ∧
          literals (startToken tokens b).2 = literals tokens := by
        intro tokens
        rw [startToken, if_neg (Ne.symm hs.1)]
        split
        · exact ⟨trivial, rfl⟩
        · split
          · exact ⟨trivial, rfl⟩
          · exact ⟨trivial, by simp⟩
      have hscan : Calm (scan (mode, tokens) b).1 ∧
          literals (scan (mode, tokens) b).2 = literals tokens := by
        cases mode with
        | gap => exact hstart tokens
        | word text =>
            rw [scan]
            split
            · exact ⟨trivial, rfl⟩
            · have := hstart (tokens ++ [.word text])
              simpa using this
        | literal content => exact absurd hmode (by simp [Calm])
        | apostrophe content => exact absurd hmode (by simp [Calm])
      obtain ⟨hcalm, hliterals⟩ := ih hs.2 hscan.1 (scan (mode, tokens) b).2
      exact ⟨hcalm, hliterals.trans hscan.2⟩

def Mode.pending : Mode → List Token
  | .word text => [.word text]
  | .gap | .literal _ | .apostrophe _ => []

theorem scanAll_content {content : CStr} (hcontent : 39 ∉ content) (before : CStr)
    (tokens : List Token) :
    scanAll content (.literal before, tokens) = (.literal (before ++ content), tokens) := by
  induction content generalizing before with
  | nil => rw [List.append_nil]; rfl
  | cons b content ih =>
      rw [List.mem_cons, not_or] at hcontent
      rw [scanAll, List.foldl_cons, scan, if_neg (Ne.symm hcontent.1), ← scanAll,
        ih hcontent.2, List.append_assoc]
      rfl

/-- A value without apostrophes, between two of them, is a literal. -/
theorem scanAll_literal {content : CStr} (hcontent : 39 ∉ content) {mode : Mode}
    (hmode : Calm mode) (tokens : List Token) :
    scanAll (39 :: (content ++ [39, 32])) (mode, tokens) =
      (.gap, tokens ++ mode.pending ++ [.literal content]) := by
  have hopen : scan (mode, tokens) 39 = (.literal [], tokens ++ mode.pending) := by
    cases mode with
    | gap => rw [Mode.pending, List.append_nil]; rfl
    | word text => rfl
    | literal content => exact absurd hmode (by simp [Calm])
    | apostrophe content => exact absurd hmode (by simp [Calm])
  have hcons : 39 :: (content ++ [39, 32]) = [39] ++ (content ++ [39, 32]) := rfl
  rw [hcons, scanAll_append, scanAll_append]
  change scanAll [39, 32] (scanAll content (scan (mode, tokens) 39)) = _
  rw [hopen, scanAll_content hcontent]
  rfl

/-! ## Texts of one shape -/

/-- The scanner is at the same place, outside of literals, and has found the same tokens up to
the contents of literals. -/
structure Alike (st st' : Mode × List Token) : Prop where
  mode_eq : st'.1 = st.1
  calm : Calm st.1
  shape_eq : st'.2.map Token.shape = st.2.map Token.shape

theorem Alike.plain {st st' : Mode × List Token} (h : Alike st st') {s : CStr} (hs : 39 ∉ s) :
    Alike (scanAll s st) (scanAll s st') := by
  obtain ⟨mode, tokens⟩ := st
  obtain ⟨mode', tokens'⟩ := st'
  obtain rfl : mode' = mode := h.mode_eq
  have hcut : ∀ tokens, scanAll s (mode', tokens) =
      ((scanAll s (mode', [])).1, tokens ++ (scanAll s (mode', [])).2) := by
    intro tokens
    have := scanAll_prefix tokens s mode' []
    rwa [List.append_nil] at this
  rw [hcut tokens, hcut tokens']
  refine ⟨rfl, (scanAll_plain hs h.calm []).1, ?_⟩
  rw [List.map_append, List.map_append, h.shape_eq]

theorem Alike.literal {st st' : Mode × List Token} (h : Alike st st') {content content' : CStr}
    (hcontent : 39 ∉ content) (hcontent' : 39 ∉ content') :
    Alike (scanAll (39 :: (content ++ [39, 32])) st)
      (scanAll (39 :: (content' ++ [39, 32])) st') := by
  obtain ⟨mode, tokens⟩ := st
  obtain ⟨mode', tokens'⟩ := st'
  obtain rfl : mode' = mode := h.mode_eq
  rw [scanAll_literal hcontent h.calm, scanAll_literal hcontent' h.calm]
  refine ⟨rfl, trivial, ?_⟩
  simp only [List.map_append, h.shape_eq]
  rfl

theorem Alike.finish {st st' : Mode × List Token} (h : Alike st st') :
    (finish st').map (List.map Token.shape) = (finish st).map (List.map Token.shape) := by
  obtain ⟨mode, tokens⟩ := st
  obtain ⟨mode', tokens'⟩ := st'
  obtain rfl : mode' = mode := h.mode_eq
  have hshape := h.shape_eq
  dsimp only at hshape
  cases mode' with
  | gap => simp [SqlTokens.finish, hshape]
  | word text => simp [SqlTokens.finish, hshape]
  | literal content => exact absurd h.calm (by simp [Calm])
  | apostrophe content => exact absurd h.calm (by simp [Calm])

/-! ## Counting apostrophes -/

/-- The apostrophes that literals with the contents take. -/
def apostrophes (contents : List CStr) : Nat :=
  (contents.map fun content => 2 + 2 * content.count 39).sum

def Mode.apostrophes : Mode → Nat
  | .gap | .word _ => 0
  | .literal content => 1 + 2 * content.count 39
  | .apostrophe content => 2 + 2 * content.count 39

theorem apostrophes_concat (contents : List CStr) (content : CStr) :
    apostrophes (contents ++ [content]) = apostrophes contents + (2 + 2 * content.count 39) := by
  simp [apostrophes]

theorem count_other {b : UInt8} (hb : b ≠ 39) : [b].count 39 = 0 :=
  List.count_eq_zero.mpr (by simpa using Ne.symm hb)

theorem count_startToken (tokens : List Token) (b : UInt8) :
    (startToken tokens b).1.apostrophes + apostrophes (literals (startToken tokens b).2) =
      apostrophes (literals tokens) + [b].count 39 := by
  rw [startToken]
  by_cases hb : b = 39
  · subst hb
    have hspace : isSpace 39 = false := by decide
    simp [hspace, Mode.apostrophes]
    omega
  · rw [if_neg hb, count_other hb, Nat.add_zero]
    split
    · simp [Mode.apostrophes]
    · split <;> simp [Mode.apostrophes]

theorem count_scan (mode : Mode) (tokens : List Token) (b : UInt8) :
    (scan (mode, tokens) b).1.apostrophes + apostrophes (literals (scan (mode, tokens) b).2) =
      mode.apostrophes + apostrophes (literals tokens) + [b].count 39 := by
  cases mode with
  | gap =>
      rw [scan, count_startToken, Mode.apostrophes, Nat.zero_add]
  | word text =>
      rw [scan]
      split
      · next hword =>
          rw [count_other (not_special_of_isWordByte hword).2]
          rfl
      · rw [count_startToken, literals_append, literals_word, List.append_nil, Mode.apostrophes,
          Nat.zero_add]
  | literal content =>
      rw [scan]
      split
      · next hb =>
          subst hb
          simp only [Mode.apostrophes, List.count_singleton_self]
          omega
      · next hb =>
          simp only [Mode.apostrophes, List.count_append, count_other hb]
          omega
  | apostrophe content =>
      rw [scan]
      split
      · next hb =>
          subst hb
          simp only [Mode.apostrophes, List.count_append, List.count_singleton_self]
          omega
      · rw [count_startToken, literals_append, literals_literal, apostrophes_concat,
          Mode.apostrophes]
        omega

/-- Every apostrophe of the text belongs to a literal. -/
theorem count_scanAll (s : CStr) (mode : Mode) (tokens : List Token) :
    (scanAll s (mode, tokens)).1.apostrophes +
        apostrophes (literals (scanAll s (mode, tokens)).2) =
      mode.apostrophes + apostrophes (literals tokens) + s.count 39 := by
  induction s generalizing mode tokens with
  | nil => rfl
  | cons b s ih =>
      have hstep := count_scan mode tokens b
      have hcount : (b :: s).count 39 = [b].count 39 + s.count 39 := by
        rw [← List.count_append]
        rfl
      rw [scanAll, List.foldl_cons, ← scanAll, ih, hstep, hcount]
      omega

theorem count_sqlTokens {s : CStr} {tokens : List Token} (h : sqlTokens s = some tokens) :
    s.count 39 = apostrophes (literals tokens) := by
  have hcount := count_scanAll s .gap []
  rw [sqlTokens] at h
  generalize scanAll s (.gap, []) = st at h hcount
  obtain ⟨mode, found⟩ := st
  have hzero : Mode.gap.apostrophes + apostrophes (literals []) = 0 := rfl
  rw [hzero, Nat.zero_add] at hcount
  rw [← hcount]
  cases mode with
  | gap =>
      obtain rfl := Option.some.inj h
      exact Nat.zero_add _
  | word text =>
      obtain rfl := Option.some.inj h
      rw [literals_append, literals_word, List.append_nil]
      exact Nat.zero_add _
  | literal content => exact absurd h (by simp [finish])
  | apostrophe content =>
      obtain rfl := Option.some.inj h
      rw [literals_append, literals_literal, apostrophes_concat, Nat.add_comm]
      rfl

/-! ## Texts with values in them -/

/-- A part of a text, or a value that is put between apostrophes as it is. -/
inductive Piece
  | plain (text : CStr)
  | value (content : CStr)
deriving DecidableEq

def Piece.text : Piece → CStr
  | .plain text => text
  | .value content => 39 :: (content ++ [39, 32])

def piecesText (pieces : List Piece) : CStr := pieces.flatMap Piece.text

def contents (pieces : List Piece) : List CStr :=
  pieces.filterMap fun
    | .plain _ => none
    | .value content => some content

def Piece.blank : Piece → Piece
  | .plain text => .plain text
  | .value _ => .value []

/-- The parts around the values have no apostrophes of their own. -/
def PlainParts (pieces : List Piece) : Prop := ∀ text, Piece.plain text ∈ pieces → 39 ∉ text

@[simp] theorem piecesText_nil : piecesText [] = [] := rfl

@[simp] theorem piecesText_cons (piece : Piece) (pieces : List Piece) :
    piecesText (piece :: pieces) = piece.text ++ piecesText pieces := List.flatMap_cons

@[simp] theorem piecesText_append (pieces pieces' : List Piece) :
    piecesText (pieces ++ pieces') = piecesText pieces ++ piecesText pieces' :=
  List.flatMap_append

@[simp] theorem contents_append (pieces pieces' : List Piece) :
    contents (pieces ++ pieces') = contents pieces ++ contents pieces' := List.filterMap_append ..

theorem contents_cons_plain (text : CStr) (pieces : List Piece) :
    contents (.plain text :: pieces) = contents pieces := rfl

theorem contents_cons_value (content : CStr) (pieces : List Piece) :
    contents (.value content :: pieces) = content :: contents pieces := rfl

theorem PlainParts.tail {piece : Piece} {pieces : List Piece} (h : PlainParts (piece :: pieces)) :
    PlainParts pieces := fun text htext => h text (List.mem_cons_of_mem piece htext)

theorem plainParts_append {pieces pieces' : List Piece} (h : PlainParts pieces)
    (h' : PlainParts pieces') : PlainParts (pieces ++ pieces') := fun text htext =>
  (List.mem_append.mp htext).elim (h text) (h' text)

theorem scanAll_pieces {pieces : List Piece} (hplain : PlainParts pieces)
    (hvalues : ∀ content ∈ contents pieces, 39 ∉ content) {mode : Mode} (hmode : Calm mode)
    (tokens : List Token) :
    Calm (scanAll (piecesText pieces) (mode, tokens)).1 ∧
      literals (scanAll (piecesText pieces) (mode, tokens)).2 =
        literals tokens ++ contents pieces := by
  induction pieces generalizing mode tokens with
  | nil => exact ⟨hmode, (List.append_nil _).symm⟩
  | cons piece pieces ih =>
      rw [piecesText_cons, scanAll_append]
      cases piece with
      | plain text =>
          obtain ⟨hcalm, hliterals⟩ := scanAll_plain (hplain text List.mem_cons_self) hmode tokens
          obtain ⟨hcalm', hliterals'⟩ := ih hplain.tail hvalues hcalm
            (scanAll text (mode, tokens)).2
          exact ⟨hcalm', by rw [← hliterals]; exact hliterals'⟩
      | value content =>
          rw [contents_cons_value, List.forall_mem_cons] at hvalues
          have hpending : literals mode.pending = [] := by cases mode <;> rfl
          have hgap : Calm .gap := trivial
          obtain ⟨hcalm', hliterals'⟩ := ih hplain.tail hvalues.2 hgap
            (tokens ++ mode.pending ++ [.literal content])
          rw [Piece.text, scanAll_literal hvalues.1 hmode]
          refine ⟨hcalm', hliterals'.trans ?_⟩
          simp [hpending, contents_cons_value]

theorem Alike.pieces {pieces pieces' : List Piece}
    (hblank : pieces'.map Piece.blank = pieces.map Piece.blank) (hplain : PlainParts pieces)
    (hvalues : ∀ content ∈ contents pieces, 39 ∉ content)
    (hvalues' : ∀ content ∈ contents pieces', 39 ∉ content) {st st' : Mode × List Token}
    (h : Alike st st') :
    Alike (scanAll (piecesText pieces) st) (scanAll (piecesText pieces') st') := by
  induction pieces generalizing pieces' st st' with
  | nil =>
      obtain rfl := List.map_eq_nil_iff.mp hblank
      exact h
  | cons piece pieces ih =>
      cases pieces' with
      | nil => exact absurd hblank (by simp)
      | cons piece' pieces' =>
          obtain ⟨hpiece, hrest⟩ := List.cons.inj hblank
          rw [piecesText_cons, piecesText_cons, scanAll_append, scanAll_append]
          cases piece with
          | plain text =>
              cases piece' with
              | plain text' =>
                  obtain rfl := Piece.plain.inj hpiece
                  exact ih hrest hplain.tail hvalues hvalues'
                    (h.plain (hplain text' List.mem_cons_self))
              | value content' => exact absurd hpiece (by simp [Piece.blank])
          | value content =>
              cases piece' with
              | plain text' => exact absurd hpiece (by simp [Piece.blank])
              | value content' =>
                  rw [contents_cons_value, List.forall_mem_cons] at hvalues hvalues'
                  exact ih hrest hplain.tail hvalues.2 hvalues'.2
                    (h.literal hvalues.1 hvalues'.1)

theorem count_piecesText {pieces : List Piece} (hplain : PlainParts pieces) :
    (piecesText pieces).count 39 =
      ((contents pieces).map fun content => 2 + content.count 39).sum := by
  induction pieces with
  | nil => rfl
  | cons piece pieces ih =>
      rw [piecesText_cons, List.count_append, ih hplain.tail]
      cases piece with
      | plain text =>
          have hzero := List.count_eq_zero.mpr (hplain text List.mem_cons_self)
          rw [Piece.text, hzero, contents_cons_plain, Nat.zero_add]
      | value content =>
          rw [Piece.text, contents_cons_value, List.map_cons, List.sum_cons, List.count_cons_self,
            List.count_append]
          have hend : List.count 39 ([39, 32] : CStr) = 1 := by decide
          omega

theorem count_eq_zero_of_sum_le {values : List CStr}
    (hsum : apostrophes values ≤ (values.map fun content => 2 + content.count 39).sum) :
    ∀ content ∈ values, content.count 39 = 0 := by
  induction values with
  | nil => simp
  | cons value values ih =>
      have hle : (values.map fun content => 2 + content.count 39).sum ≤ apostrophes values :=
        List.sum_le_sum fun content _ => by omega
      rw [apostrophes, List.map_cons, List.map_cons, List.sum_cons, List.sum_cons,
        ← apostrophes] at hsum
      intro content hcontent
      rcases List.mem_cons.mp hcontent with rfl | hrest
      · omega
      · exact ih (by omega) content hrest

theorem sum_count_cut_le (given : List CStr) (kept size : Nat) :
    (((given.take kept).map (List.take size)).map fun content => 2 + content.count 39).sum ≤
      (given.map fun content => 2 + content.count 39).sum := by
  have hsplit : given.map (fun content => 2 + content.count 39) =
      (given.take kept).map (fun content => 2 + content.count 39) ++
        (given.drop kept).map fun content => 2 + content.count 39 := by
    rw [← List.map_append, List.take_append_drop]
  rw [hsplit, List.sum_append, List.map_map]
  refine (List.sum_le_sum fun content _ => ?_).trans (Nat.le_add_right _ _)
  exact Nat.add_le_add_left ((List.take_sublist size content).count_le 39) 2

theorem literals_piecesText {pieces : List Piece} (hplain : PlainParts pieces)
    (hvalues : ∀ content ∈ contents pieces, 39 ∉ content) :
    ∃ tokens, sqlTokens (piecesText pieces) = some tokens ∧ literals tokens = contents pieces := by
  have hgap : Calm .gap := trivial
  obtain ⟨hcalm, hliterals⟩ := scanAll_pieces hplain hvalues hgap []
  obtain ⟨more, hfinish, hmore⟩ := hcalm.finish (scanAll (piecesText pieces) (.gap, [])).2
  refine ⟨_, hfinish, ?_⟩
  rw [literals_append, hmore, List.append_nil, hliterals]
  rfl

/-- Where some of the given values are put into a text, cut to a size: the given values are the
literals of the text exactly if all of them are put there, whole, and none has an apostrophe. -/
theorem literals_piecesText_iff {pieces : List Piece} (hplain : PlainParts pieces)
    {given : List CStr} {kept size : Nat}
    (hcut : contents pieces = (given.take kept).map (List.take size)) :
    (∃ tokens, sqlTokens (piecesText pieces) = some tokens ∧ literals tokens = given) ↔
      contents pieces = given ∧ ∀ content ∈ given, 39 ∉ content := by
  constructor
  · rintro ⟨tokens, htokens, hliterals⟩
    -- a literal needs two apostrophes for each one in it, but the text has only one
    have hcount := count_sqlTokens htokens
    rw [count_piecesText hplain, hliterals, hcut] at hcount
    have hgiven : ∀ content ∈ given, 39 ∉ content := fun content hcontent =>
      List.count_eq_zero.mp (count_eq_zero_of_sum_le
        (hcount.symm.le.trans (sum_count_cut_le given kept size)) content hcontent)
    have hstored : ∀ content ∈ contents pieces, 39 ∉ content := by
      intro content hcontent
      rw [hcut] at hcontent
      obtain ⟨value, hvalue, rfl⟩ := List.mem_map.mp hcontent
      exact fun hmem => hgiven value (List.mem_of_mem_take hvalue) (List.mem_of_mem_take hmem)
    obtain ⟨tokens', htokens', hliterals'⟩ := literals_piecesText hplain hstored
    rw [htokens, Option.some.injEq] at htokens'
    rw [← hliterals', ← htokens', hliterals]
    exact ⟨rfl, hgiven⟩
  · rintro ⟨hall, hvalues⟩
    rw [← hall] at hvalues ⊢
    exact literals_piecesText hplain hvalues

/-- Texts that only differ in such values have the same tokens up to them. -/
theorem shape_piecesText {pieces pieces' : List Piece}
    (hblank : pieces'.map Piece.blank = pieces.map Piece.blank) (hplain : PlainParts pieces)
    (hvalues : ∀ content ∈ contents pieces, 39 ∉ content)
    (hvalues' : ∀ content ∈ contents pieces', 39 ∉ content) :
    (sqlTokens (piecesText pieces')).map (List.map Token.shape) =
      (sqlTokens (piecesText pieces)).map (List.map Token.shape) := by
  have hstart : Alike (.gap, []) (.gap, []) := ⟨rfl, trivial, rfl⟩
  exact (hstart.pieces hblank hplain hvalues hvalues').finish

end MiniBackend.Lib.SqlTokens
