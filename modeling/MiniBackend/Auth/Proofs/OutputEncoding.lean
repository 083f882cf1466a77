import MiniBackend.Auth.WebSecurity

/-!
# Encoded output

An encoder stays inside its buffer as long as no byte is replaced by more than the slack of its
guard, which the escapes for angle brackets in a script are.  What it writes is the encoding of a
part of the input from its beginning, and decodes to that part.
-/

namespace MiniBackend.Auth.Proofs.OutputEncoding

open MiniBackend.Lib.CString MiniBackend.Auth.WebSecurity

/-! ## The loop of the encoders -/

section Loop

variable (expand : UInt8 → CStr) (slack size : Nat)

theorem encodeLoop_eq_take (src : CStr) (di : Nat) :
    ∃ n, encodeLoop expand slack size src di = (src.take n).flatMap expand ∧ n ≤ src.length ∧
      (n < src.length → size ≤ di + ((src.take n).flatMap expand).length + slack) := by
  induction src generalizing di with
  | nil => exact ⟨0, rfl, Nat.le_refl _, fun h => absurd h (Nat.lt_irrefl _)⟩
  | cons b src ih =>
      rw [encodeLoop]
      split
      · obtain ⟨n, hloop, hn, hstop⟩ := ih (di + (expand b).length)
        refine ⟨n + 1, ?_, Nat.succ_le_succ hn, ?_⟩
        · rw [hloop, List.take_succ_cons, List.flatMap_cons]
        · intro hlt
          have hsize := hstop (Nat.lt_of_succ_lt_succ hlt)
          rw [List.take_succ_cons, List.flatMap_cons, List.length_append]
          omega
      · next hguard => exact ⟨0, rfl, Nat.zero_le _, fun _ => Nat.le_of_not_lt hguard⟩

theorem encodeLoop_lt_iff (src : CStr) {di : Nat} (hdi : di < size) :
    di + (encodeLoop expand slack size src di).length < size ↔
      ∀ p c rest, src = p ++ c :: rest → di + (p.flatMap expand).length + slack < size →
        di + (p.flatMap expand).length + (expand c).length < size := by
  induction src generalizing di with
  | nil => exact iff_of_true hdi fun p c rest h => by simp at h
  | cons b src ih =>
      rw [encodeLoop]
      split
      · next hguard =>
          rw [List.length_append, ← Nat.add_assoc]
          by_cases hfits : di + (expand b).length < size
          · rw [ih hfits]
            constructor
            · rintro h p c rest hsplit hpassed
              cases p with
              | nil =>
                  obtain ⟨rfl, -⟩ := List.cons.inj hsplit
                  exact hfits
              | cons a p =>
                  obtain ⟨rfl, htail⟩ := List.cons.inj hsplit
                  rw [List.flatMap_cons, List.length_append] at hpassed ⊢
                  have hbelow := h p c rest htail (by omega)
                  omega
            · intro h p c rest hsplit hpassed
              have hbelow := h (b :: p) c rest (by rw [hsplit]; rfl)
              rw [List.flatMap_cons, List.length_append] at hbelow
              have hlt := hbelow (by omega)
              omega
          · refine iff_of_false (by omega) ?_
            intro h
            exact hfits (h [] b src rfl hguard)
      · next hguard =>
          refine iff_of_true hdi ?_
          intro p c rest _ hpassed
          exact absurd (by omega) hguard

end Loop

theorem encodeLoop_lt_of_le {expand : UInt8 → CStr} {slack size : Nat}
    (hexpand : ∀ b, (expand b).length ≤ slack) (src : CStr) (hsize : 0 < size) :
    (encodeLoop expand slack size src 0).length < size := by
  have hlt := (encodeLoop_lt_iff expand slack size src hsize).mpr fun p c rest _ hpassed => by
    have hle := hexpand c
    omega
  omega

theorem mem_writeIndices_lt_iff {out : CStr} {size : Nat} :
    (∀ i ∈ writeIndices out, i < size) ↔ out.length < size := by
  simp only [writeIndices, List.mem_range]
  constructor
  · exact fun h => h out.length (Nat.lt_succ_self _)
  · intro h i hi
    omega

/-! ## Decoding -/

theorem htmlEntity_self {b : UInt8} (hamp : b ≠ 38) (hlt : b ≠ 60) (hgt : b ≠ 62)
    (hquot : b ≠ 34) (hapos : b ≠ 39) (hslash : b ≠ 47) : htmlEntity b = [b] := by
  rw [htmlEntity, if_neg hamp, if_neg hlt, if_neg hgt, if_neg hquot, if_neg hapos, if_neg hslash]

theorem htmlDecodeLoop_entity (b : UInt8) (n : Nat) (rest : CStr) :
    htmlDecodeLoop (n + 1) (htmlEntity b ++ rest) = b :: htmlDecodeLoop n rest := by
  by_cases hspecial : b ∈ [(38 : UInt8), 60, 62, 34, 39, 47]
  · simp only [List.mem_cons, List.not_mem_nil, or_false] at hspecial
    rcases hspecial with rfl | rfl | rfl | rfl | rfl | rfl <;> rfl
  · simp only [List.mem_cons, List.not_mem_nil, or_false, not_or] at hspecial
    obtain ⟨hamp, hlt, hgt, hquot, hapos, hslash⟩ := hspecial
    have hself := htmlEntity_self hamp hlt hgt hquot hapos hslash
    -- every entity begins with an ampersand
    have hother : ∀ (text : CStr) (k : Nat),
        strncmpEq (b :: rest) (38 :: text) (k + 1) = false := by
      intro text k
      simp [strncmpEq, hamp]
    have hnone : entities.find? (fun entity =>
        strncmpEq (b :: rest) entity.1 entity.1.length) = none := by
      rw [List.find?_eq_none]
      intro entity hentity
      have hhead : ∃ text, entity.1 = 38 :: text := by
        revert entity
        simp [entities, lit]
      obtain ⟨text, htext⟩ := hhead
      rw [htext, List.length_cons, hother]
      exact Bool.false_ne_true
    rw [hself, List.singleton_append, htmlDecodeLoop, hnone]

theorem strtolHex_hexUpper (b : UInt8) :
    UInt8.ofInt (strtolHex [hexUpper (b >>> 4), hexUpper (b &&& 15)]) = b := by
  revert b
  apply forall_byte
  decide +kernel

theorem urlDecodeLoop_escape (b : UInt8) (n : Nat) (rest : CStr) :
    urlDecodeLoop (n + 1) (urlEscape b ++ rest) = b :: urlDecodeLoop n rest := by
  rw [urlEscape]
  split
  · next hunreserved =>
      have hpercent : ¬b = 37 := by
        rintro rfl
        exact absurd hunreserved (by decide)
      have hplus : ¬b = 43 := by
        rintro rfl
        exact absurd hunreserved (by decide)
      rw [List.singleton_append, urlDecodeLoop, if_neg (fun h => hpercent h.1), if_neg hplus]
  · split
    · next hblank =>
        rw [hblank]
        rfl
    · rw [List.cons_append, List.cons_append, List.singleton_append, urlDecodeLoop,
        if_pos ⟨rfl, by simp⟩]
      change UInt8.ofInt (strtolHex [_, _]) :: urlDecodeLoop n rest = _
      rw [strtolHex_hexUpper]

theorem decode_flatMap {expand : UInt8 → CStr} {decode : Nat → CStr → CStr}
    (hstep : ∀ b n rest, decode (n + 1) (expand b ++ rest) = b :: decode n rest)
    (hend : ∀ n, decode n [] = []) {s : CStr} {room : Nat} (hroom : s.length ≤ room) :
    decode room (s.flatMap expand) = s := by
  induction s generalizing room with
  | nil => exact hend room
  | cons b s ih =>
      rw [List.length_cons] at hroom
      obtain ⟨n, rfl⟩ : ∃ n, room = n + 1 := ⟨room - 1, by omega⟩
      rw [List.flatMap_cons, hstep, ih (Nat.le_of_succ_le_succ hroom)]

/-! ## The encoders -/

def UrlGroup (group : CStr) : Prop :=
  (∃ c, isUnreserved c = true ∧ group = [c]) ∨ group = [43] ∨
    ∃ high low, high < 16 ∧ low < 16 ∧ group = [37, hexUpper high, hexUpper low]

theorem htmlEntity_bytes (b : UInt8) :
    htmlEntity b ≠ [] ∧ (htmlEntity b).length ≤ 6 ∧
      ∀ c ∈ htmlEntity b, c ≠ 60 ∧ c ≠ 62 ∧ c ≠ 34 ∧ c ≠ 39 := by
  by_cases hspecial : b ∈ [(38 : UInt8), 60, 62, 34, 39, 47]
  · simp only [List.mem_cons, List.not_mem_nil, or_false] at hspecial
    rcases hspecial with rfl | rfl | rfl | rfl | rfl | rfl <;>
      simp [htmlEntity, lit]
  · simp only [List.mem_cons, List.not_mem_nil, or_false, not_or] at hspecial
    obtain ⟨hamp, hlt, hgt, hquot, hapos, hslash⟩ := hspecial
    rw [htmlEntity_self hamp hlt hgt hquot hapos hslash]
    simp [hlt, hgt, hquot, hapos]

theorem urlEscape_bytes (b : UInt8) :
    urlEscape b ≠ [] ∧ (urlEscape b).length ≤ 3 ∧ b >>> 4 < 16 ∧ b &&& 15 < 16 := by
  revert b
  apply forall_byte
  decide +kernel

theorem urlEscape_group (b : UInt8) : UrlGroup (urlEscape b) := by
  have hdigits := (urlEscape_bytes b).2.2
  rw [urlEscape]
  split
  · next hunreserved => exact Or.inl ⟨b, hunreserved, rfl⟩
  · split
    · exact Or.inr (Or.inl rfl)
    · exact Or.inr (Or.inr ⟨b >>> 4, b &&& 15, hdigits.1, hdigits.2, rfl⟩)

/-- `out` is what an encoder leaves of `s` in a buffer of `size` bytes: the encoding of `part`,
which its decoder returns, and which is all of `s` if the guard does not stop the encoder. -/
structure Encodes (expand : UInt8 → CStr) (slack : Nat) (decode : CStr → Nat → Option CStr)
    (s : CStr) (size : Nat) (out part : CStr) : Prop where
  beginning : part <+: s
  text : out = part.flatMap expand
  fits : out.length < size
  decoded : ∀ room, part.length < room → decode out room = some part
  whole : (s.flatMap expand).length + slack ≤ size ∨ out = s.flatMap expand → part = s

theorem encodes_encodeLoop {expand : UInt8 → CStr} {slack : Nat}
    {decode : CStr → Nat → Option CStr} (hexpand : ∀ b, expand b ≠ [] ∧ (expand b).length ≤ slack)
    (hdecode : ∀ (s : CStr) room, s.length < room → decode (s.flatMap expand) room = some s)
    (s : CStr) {size : Nat} (hsize : 1 ≤ size) :
    ∃ part, Encodes expand slack decode s size (encodeLoop expand slack size s 0) part := by
  obtain ⟨n, htext, hn, hstop⟩ := encodeLoop_eq_take expand slack size s 0
  refine ⟨s.take n, List.take_prefix n s, htext, ?_, ?_, ?_⟩
  · exact encodeLoop_lt_of_le (fun b => (hexpand b).2) s hsize
  · intro room hroom
    rw [htext]
    exact hdecode _ room hroom
  · rintro (hlarge | hall)
    · apply List.take_of_length_le
      by_contra hlt
      obtain ⟨b, rest, hdrop⟩ := List.exists_cons_of_length_pos
        (show 0 < (s.drop n).length by rw [List.length_drop]; omega)
      have hlength : (s.flatMap expand).length =
          ((s.take n).flatMap expand).length + ((s.drop n).flatMap expand).length := by
        rw [← List.length_append, ← List.flatMap_append, List.take_append_drop]
      have hpos := List.length_pos_iff.mpr (hexpand b).1
      rw [hdrop, List.flatMap_cons, List.length_append] at hlength
      have hguard := hstop (by omega)
      omega
    · have hpart := hdecode (s.take n) (s.length + 1) (by rw [List.length_take]; omega)
      rw [← htext, hall, hdecode s _ (Nat.lt_succ_self _)] at hpart
      exact (Option.some.inj hpart).symm

/-- The encoders are safe, and their decoders undo them. -/
theorem encoders_exact (s : CStr) {size : Nat} (hsize : 1 ≤ size) :
    (∃ out part, wsHtmlEntityEncode s size = some out ∧
      Encodes htmlEntity 8 wsHtmlEntityDecode s size out part ∧
      ∀ c ∈ out, c ≠ 60 ∧ c ≠ 62 ∧ c ≠ 34 ∧ c ≠ 39) ∧
    ∃ out part, wsUrlEncode s size = some out ∧
      Encodes urlEscape 4 wsUrlDecode s size out part ∧
      ∃ groups : List CStr, out = groups.flatten ∧ ∀ group ∈ groups, UrlGroup group := by
  have hzero : ¬size = 0 := by omega
  constructor
  · have hdecode : ∀ (s : CStr) room, s.length < room →
        wsHtmlEntityDecode (s.flatMap htmlEntity) room = some s := by
      intro s room hroom
      rw [wsHtmlEntityDecode, if_neg (by omega),
        decode_flatMap htmlDecodeLoop_entity (fun n => by cases n <;> rfl) (by omega)]
    have hexpand : ∀ b, htmlEntity b ≠ [] ∧ (htmlEntity b).length ≤ 8 :=
      fun b => ⟨(htmlEntity_bytes b).1, (htmlEntity_bytes b).2.1.trans (by decide)⟩
    obtain ⟨part, hpart⟩ := encodes_encodeLoop hexpand hdecode s hsize
    refine ⟨_, part, if_neg hzero, hpart, ?_⟩
    rw [hpart.text]
    intro c hc
    obtain ⟨b, -, hb⟩ := List.mem_flatMap.mp hc
    exact (htmlEntity_bytes b).2.2 c hb
  · have hdecode : ∀ (s : CStr) room, s.length < room →
        wsUrlDecode (s.flatMap urlEscape) room = some s := by
      intro s room hroom
      rw [wsUrlDecode, if_neg (by omega),
        decode_flatMap urlDecodeLoop_escape (fun n => by cases n <;> rfl) (by omega)]
    have hexpand : ∀ b, urlEscape b ≠ [] ∧ (urlEscape b).length ≤ 4 :=
      fun b => ⟨(urlEscape_bytes b).1, (urlEscape_bytes b).2.1.trans (by decide)⟩
    obtain ⟨part, hpart⟩ := encodes_encodeLoop hexpand hdecode s hsize
    refine ⟨_, part, if_neg hzero, hpart, part.map urlEscape, ?_, ?_⟩
    · rw [hpart.text, List.flatMap_def]
    · intro group hgroup
      obtain ⟨b, -, rfl⟩ := List.mem_map.mp hgroup
      exact urlEscape_group b

theorem encoders_exact_tag :
    (∃ out part, wsHtmlEntityEncode (lit "<a & b>") 64 = some out ∧
      Encodes htmlEntity 8 wsHtmlEntityDecode (lit "<a & b>") 64 out part ∧
      ∀ c ∈ out, c ≠ 60 ∧ c ≠ 62 ∧ c ≠ 34 ∧ c ≠ 39) ∧
    ∃ out part, wsUrlEncode (lit "<a & b>") 64 = some out ∧
      Encodes urlEscape 4 wsUrlDecode (lit "<a & b>") 64 out part ∧
      ∃ groups : List CStr, out = groups.flatten ∧ ∀ group ∈ groups, UrlGroup group :=
  encoders_exact (lit "<a & b>") (by decide)

/-- Eight bytes have room for the encoding of `a`, and four for its escape, but the guards stop
the encoders before it, and nothing is left to decode. -/
theorem encoders_stop_early :
    ((lit "a").flatMap htmlEntity = lit "a" ∧ wsHtmlEntityEncode (lit "a") 8 = some [] ∧
      ∀ room, wsHtmlEntityDecode [] room ≠ some (lit "a")) ∧
    (lit "a").flatMap urlEscape = lit "a" ∧ wsUrlEncode (lit "a") 4 = some [] ∧
      ∀ room, wsUrlDecode [] room ≠ some (lit "a") := by
  refine ⟨⟨by decide, by decide, ?_⟩, by decide, by decide, ?_⟩
  · rintro (_ | _ | room) <;> simp [wsHtmlEntityDecode, htmlDecodeLoop, lit]
  · rintro (_ | _ | room) <;> simp [wsUrlDecode, urlDecodeLoop, lit]

/-! ## The sanitizer -/

theorem jsEscape_length (b : UInt8) :
    (jsEscape b).length ≤ (if b = 60 ∨ b = 62 then 4 else 3) ∧
      (b = 60 ∨ b = 62 → (jsEscape b).length = 4) := by
  revert b
  apply forall_byte
  decide +kernel

theorem cssEscape_length (b : UInt8) : (cssEscape b).length ≤ 3 := by
  rw [cssEscape]
  split <;> simp

/-- All writes are inside the buffer, unless in a script an angle bracket comes when four bytes
are left. -/
theorem sanitize_in_bounds_iff (input : CStr) (mode : WsXssMode) {size : Nat} (hsize : 1 ≤ size) :
    (∃ out, wsXssSanitize input mode size = some out ∧ ∀ i ∈ writeIndices out, i < size) ↔
      (mode = .javascript → ∀ p c rest, input = p ++ c :: rest → c = 60 ∨ c = 62 →
        (p.flatMap jsEscape).length + 4 ≠ size) := by
  have hzero : ¬size = 0 := by omega
  have hsafe : ∀ {expand slack}, (∀ b, (expand b).length ≤ slack) →
      wsXssSanitize input mode size = some (encodeLoop expand slack size input 0) →
      (∃ out, wsXssSanitize input mode size = some out ∧ ∀ i ∈ writeIndices out, i < size) := by
    intro expand slack hexpand hsanitize
    exact ⟨_, hsanitize, mem_writeIndices_lt_iff.mpr (encodeLoop_lt_of_le hexpand input hsize)⟩
  have hhtml : ∀ b, (htmlEntity b).length ≤ 8 :=
    fun b => (htmlEntity_bytes b).2.1.trans (by decide)
  have hurl : ∀ b, (urlEscape b).length ≤ 4 := fun b => (urlEscape_bytes b).2.1.trans (by decide)
  cases mode with
  | html =>
      refine iff_of_true (hsafe hhtml ?_) nofun
      simp [wsXssSanitize, wsHtmlEntityEncode, hzero]
  | htmlAttr =>
      refine iff_of_true (hsafe hhtml ?_) nofun
      simp [wsXssSanitize, wsHtmlEntityEncode, hzero]
  | url =>
      refine iff_of_true (hsafe hurl ?_) nofun
      simp [wsXssSanitize, wsUrlEncode, hzero]
  | css =>
      refine iff_of_true (hsafe cssEscape_length ?_) nofun
      simp [wsXssSanitize, hzero]
  | javascript =>
      have hloop := encodeLoop_lt_iff jsEscape 3 size input hsize
      simp only [Nat.zero_add] at hloop
      have hout : wsXssSanitize input .javascript size =
          some (encodeLoop jsEscape 3 size input 0) := by simp [wsXssSanitize, hzero]
      simp only [hout, Option.some.injEq, exists_eq_left', mem_writeIndices_lt_iff, hloop,
        true_imp_iff]
      constructor
      · intro h p c rest hsplit hbracket hfull
        have hlt := h p c rest hsplit (by omega)
        rw [(jsEscape_length c).2 hbracket] at hlt
        omega
      · intro h p c rest hsplit hpassed
        have hle := (jsEscape_length c).1
        split at hle
        · next hbracket =>
            have hfull := h p c rest hsplit hbracket
            omega
        · omega

theorem sanitize_in_bounds_iff_script :
    (∃ out, wsXssSanitize (lit "a<b") .javascript 16 = some out ∧
        ∀ i ∈ writeIndices out, i < 16) ↔
      (WsXssMode.javascript = .javascript → ∀ p c rest, lit "a<b" = p ++ c :: rest →
        c = 60 ∨ c = 62 → (p.flatMap jsEscape).length + 4 ≠ 16) :=
  sanitize_in_bounds_iff (lit "a<b") .javascript (by decide)

/-- A bracket fills a buffer of four bytes, and the terminator is written behind it. -/
theorem bracket_fills_buffer :
    ¬∃ out, wsXssSanitize (lit "<") .javascript 4 = some out ∧
      ∀ i ∈ writeIndices out, i < 4 := by
  have hout : wsXssSanitize (lit "<") .javascript 4 = some (lit "\\x3C") := by decide
  rw [hout]
  rintro ⟨out, hsome, hbounds⟩
  obtain rfl := Option.some.inj hsome
  exact absurd (hbounds 4 (by decide)) (by decide)

end MiniBackend.Auth.Proofs.OutputEncoding
