import MiniBackend.WebServer.Proofs.SerializerCuts

/-!
# What the serializer leaves in a full buffer

A text that does not fit is cut.  The position then counts on by the full length of everything
that is still printed, and from behind the end of the buffer nothing may be printed.  So little may
follow the cut: the closing bracket of the outermost value, or what stands between its last two
values.
-/

namespace MiniBackend.WebServer.Proofs.SerializerBounds

open MiniBackend.Lib.Binary64 MiniBackend.Lib.CString MiniBackend.WebServer.Json
open MiniBackend.WebServer.Proofs.JsonText MiniBackend.WebServer.Proofs.JsonReading
open MiniBackend.WebServer.Proofs.SerializerWalk MiniBackend.WebServer.Proofs.SerializerCuts

section

variable (formatG17 : Double → CStr) (bufSz : Nat)

inductive ClosesFull : List Entry → Prop
  | empty : bufSz = 1 → ClosesFull []
  | ends {init : List Entry} {marks : List CStr} {val : JsonValue} :
      1 + entriesLength formatG17 init + marksLength marks < bufSz →
      EndsAt formatG17 bufSz val (1 + entriesLength formatG17 init + marksLength marks) bufSz →
      ClosesFull (init ++ [(marks, val)])
  | begins {init : List Entry} {marks : List CStr} {val : JsonValue} :
      1 + entriesLength formatG17 init + marksLength marks = bufSz →
      ClosesFull (init ++ [(marks, val)])
  | comma {init : List Entry} {marks marks' : List CStr} {s : CStr} {val : JsonValue} {e : Nat} :
      WrittenTo bufSz (1 + entriesLength formatG17 init + marksLength marks + 1) s e →
      e + 2 = bufSz → marksLength marks' = 1 →
      ClosesFull (init ++ [(marks, .string s)] ++ [(marks', val)])

variable {formatG17 bufSz}

theorem spaced_init {init : List Entry} {e : Entry}
    (hspaced : ∀ e' ∈ (init ++ [e]).tail, 1 ≤ marksLength e'.1) :
    ∀ e' ∈ init.tail, 1 ≤ marksLength e'.1 := by
  by_cases hnil : init = []
  · subst hnil
    exact nofun
  · rw [List.tail_append_of_ne_nil hnil] at hspaced
    exact fun e' he' => hspaced e' (List.mem_append_left _ he')

theorem closesFull_of_walk {es : List Entry} (hspaced : ∀ e ∈ es.tail, 1 ≤ marksLength e.1)
    (hwalk : walkEntries formatG17 bufSz es 1 = some bufSz) : ClosesFull formatG17 bufSz es := by
  rcases List.eq_nil_or_concat' es with rfl | ⟨init, ⟨marks, val⟩, rfl⟩
  · exact .empty (Option.some.inj hwalk).symm
  · obtain ⟨before, start, hinit, hmarks, hval⟩ := walkEntries_concat.mp hwalk
    have hmono := le_of_walkEntries (fun e _ => le_of_walk e.2) (le_refl 1) hinit
    have hmarked := eq_of_walkMarks hmarks
    have hle := le_of_walk val start bufSz (by omega) hval
    by_cases hroom : start < bufSz
    · have hstart := walkEntries_init hspaced
        (fun e _ => endsWell e.2) (le_refl 1) hinit hmarks hroom
      subst hstart
      exact .ends hroom ((endsWell val _ _ (by omega) hroom (le_refl _)).mp hval)
    · by_cases hbefore : before + 1 < bufSz
      · have hwhole := eq_of_walkEntries (fun e _ => endsWell e.2) (le_refl 1) hbefore hinit
        exact .begins (by omega)
      · by_cases hnil : init = []
        · subst hnil
          have hone := Option.some.inj hinit
          exact .begins (by rw [entriesLength]; omega)
        · have hspace := spaced_concat hspaced hnil
          have hends := (walkEntries_iff (spaced_init hspaced) (fun e _ => endsWell e.2)
            (le_refl 1) (show before < bufSz by omega)).mp hinit
          rcases hends with ⟨hnil', _⟩ | ⟨init', marks', last, rfl, hends⟩
          · exact absurd hnil' hnil
          · cases hends with
            | whole =>
                apply ClosesFull.begins
                rw [entriesLength_append, entriesLength, entriesLength]
                omega
            | string hwritten => exact .comma hwritten (by omega) (by omega)
            | lastString => omega

theorem walk_of_closesFull {es : List Entry} (hspaced : ∀ e ∈ es.tail, 1 ≤ marksLength e.1)
    (hcloses : ClosesFull formatG17 bufSz es) : walkEntries formatG17 bufSz es 1 = some bufSz := by
  cases hcloses with
  | empty hbuf =>
      rw [hbuf]
      rfl
  | @ends init marks val hroom hends =>
      have hinit := @walkEntries_of_lt formatG17 bufSz init (fun e _ => endsWell e.2) 1
        (le_refl 1) (by omega)
      have hmarks := @walkMarks_of_le bufSz marks (1 + entriesLength formatG17 init) (by omega)
      have hval := (endsWell val _ _ (by omega) hroom (le_refl _)).mpr hends
      exact walkEntries_concat.mpr ⟨_, _, hinit, hmarks, hval⟩
  | @begins init marks val hfull =>
      have hinit : walkEntries formatG17 bufSz init 1 =
          some (1 + entriesLength formatG17 init) := by
        by_cases hnil : init = []
        · subst hnil
          rfl
        · have hspace := spaced_concat hspaced hnil
          exact walkEntries_of_lt (fun e _ => endsWell e.2) (le_refl 1) (by omega)
      have hmarks := @walkMarks_of_le bufSz marks (1 + entriesLength formatG17 init) (by omega)
      have hval := @walk_of_full formatG17 bufSz val _ hfull.ge
      rw [hfull] at hval hmarks
      exact walkEntries_concat.mpr ⟨_, _, hinit, hmarks, hval⟩
  | @comma init marks marks' s val e hwritten hend hcomma =>
      have hinit := (walkEntries_iff (spaced_init hspaced) (fun e _ => endsWell e.2) (le_refl 1)
        (show e + 1 < bufSz by omega)).mpr (.inr ⟨init, marks, _, rfl, .string hwritten⟩)
      have hmarks := @walkMarks_of_le bufSz marks' (e + 1) (by omega)
      have hfull : e + 1 + marksLength marks' = bufSz := by omega
      have hval := @walk_of_full formatG17 bufSz val _ hfull.ge
      rw [hfull] at hval hmarks
      exact walkEntries_concat.mpr ⟨_, _, hinit, hmarks, hval⟩

/-! ## The outermost value -/

variable (formatG17 bufSz)

/-- The ways in which nothing is stored behind the buffer and nothing is taken for a complete text
that is none, with the position in the end: the text fits; it is one number or literal; it is a
string, cut or not, whose closing quote is dropped or left out; its last bracket is dropped or left
out. -/
inductive Harmless : JsonValue → Nat → Prop
  | fits {val : JsonValue} :
      textLength formatG17 val < bufSz → Harmless val (textLength formatG17 val)
  | single {val : JsonValue} :
      ¬ IsString val → ¬ IsContainer val → Harmless val (textLength formatG17 val)
  | string {s : CStr} {e : Nat} : 2 ≤ bufSz → WrittenTo bufSz 1 s e → bufSz ≤ e + 1 → e ≤ bufSz →
      Harmless (.string s) (e + 1)
  | emptyString : bufSz = 1 → Harmless (.string []) 2
  | dropped {val : JsonValue} :
      IsContainer val → EndsAt formatG17 bufSz val 0 bufSz → Harmless val bufSz
  | leftOut {val : JsonValue} :
      IsContainer val → ClosesFull formatG17 bufSz (entries val) → Harmless val (bufSz + 1)

variable {formatG17 bufSz}

theorem walk_container_zero {val : JsonValue} (hcontainer : IsContainer val) (hbuf : 1 ≤ bufSz)
    {q : Nat} (hq : q ≤ bufSz) :
    walk formatG17 bufSz val 0 = some q ↔ EndsAt formatG17 bufSz val 0 q :=
  walk_container_of_entries hcontainer (fun e _ => endsWell e.2) hbuf hq

theorem walk_of_fits {val : JsonValue} (hfits : textLength formatG17 val < bufSz) :
    walk formatG17 bufSz val 0 = some (textLength formatG17 val) := by
  have hends := @endsAt_of_lt formatG17 bufSz val 0 (by omega)
  rw [Nat.zero_add] at hends
  by_cases hstring : IsString val
  · cases val with
    | null | bool | number | array | object => cases hstring
    | string s =>
        rw [textLength_string] at hfits ⊢
        rw [walk_string_iff (by omega) (by omega)]
        exact ⟨_, writtenTo_whole (by omega), by omega, by omega⟩
  · by_cases hcontainer : IsContainer val
    · exact (walk_container_zero hcontainer (by omega) hfits.le).mpr hends
    · rw [walk_single hstring hcontainer (by omega), Nat.zero_add]

theorem walk_of_harmless {val : JsonValue} {q : Nat} (hbuf : 1 ≤ bufSz)
    (h : Harmless formatG17 bufSz val q) : walk formatG17 bufSz val 0 = some q := by
  cases h with
  | fits hfits => exact walk_of_fits hfits
  | single hstring hcontainer => rw [walk_single hstring hcontainer hbuf, Nat.zero_add]
  | string htwo hwritten _ hle =>
      exact (walk_string_iff htwo hbuf).mpr ⟨_, hwritten, hle, rfl⟩
  | emptyString hone =>
      subst hone
      rfl
  | dropped hcontainer hends => exact (walk_container_zero hcontainer hbuf (le_refl _)).mpr hends
  | leftOut hcontainer hcloses =>
      have hes := walk_of_closesFull (spaced_entries val) hcloses
      exact (walk_container_iff hcontainer hbuf).mpr ⟨bufSz, hes, le_refl _, rfl⟩

/-- In a buffer of one byte the loop over a string always goes on. -/
theorem walkBytes_one {s : CStr} {p e : Nat} (hp : 2 ≤ p) (h : walkBytes 1 s p = some e) :
    2 ≤ e := by
  cases s with
  | nil =>
      obtain rfl := Option.some.inj h
      exact hp
  | cons b s =>
      rw [walkBytes] at h
      by_cases hguard : p < sizeSub 1 2
      · have hbyte : walkByte 1 b p = none := by
          rw [walkByte, walkPrint, if_neg (show ¬ p < 1 by omega), if_neg (show ¬ p ≤ 1 by omega),
            ite_self]
        rw [if_pos hguard, hbyte] at h
        cases h
      · rw [if_neg hguard] at h
        obtain rfl := Option.some.inj h
        exact hp

theorem walk_string_one {s : CStr} {q : Nat} (h : walk formatG17 1 (.string s) 0 = some q) :
    s = [] ∧ q = 2 := by
  have hopen : walk formatG17 1 (.string s) 0 = (walkBytes 1 s 1).bind (walkPrint 1 1) := rfl
  rw [hopen] at h
  obtain ⟨e, hbytes, hprint⟩ := Option.bind_eq_some_iff.mp h
  obtain ⟨hle, rfl⟩ := walkPrint_eq_some.mp hprint
  cases s with
  | nil =>
      obtain rfl := Option.some.inj hbytes
      exact ⟨rfl, rfl⟩
  | cons b s =>
      rw [walkBytes, if_pos (by decide)] at hbytes
      obtain ⟨p, hbyte, hrest⟩ := Option.bind_eq_some_iff.mp hbytes
      have hp : 2 ≤ p := by
        rw [walkByte, if_neg (Nat.lt_irrefl 1)] at hbyte
        by_cases hplain : escapeByte b = [b]
        · rw [if_pos hplain] at hbyte
          cases hbyte
        · rw [if_neg hplain, walkPrint_eq_some] at hbyte
          have hlength := escapeByte_length_pos b
          omega
      have hlate := walkBytes_one hp hrest
      omega

theorem harmless_of_walk {val : JsonValue} {q : Nat} (hbuf : 1 ≤ bufSz)
    (h : walk formatG17 bufSz val 0 = some q) (hq : bufSz ≤ q) :
    Harmless formatG17 bufSz val q := by
  by_cases hcontainer : IsContainer val
  · obtain ⟨stop, hes, hle, rfl⟩ := (walk_container_iff hcontainer hbuf).mp h
    by_cases hfull : stop = bufSz
    · subst hfull
      exact .leftOut hcontainer (closesFull_of_walk (spaced_entries val) hes)
    · have hlast : stop + 1 = bufSz := by omega
      rw [hlast] at h ⊢
      exact .dropped hcontainer ((walk_container_zero hcontainer hbuf (le_refl _)).mp h)
  · by_cases hstring : IsString val
    · cases val with
      | null | bool | number | array | object => cases hstring
      | string s =>
          by_cases htwo : 2 ≤ bufSz
          · obtain ⟨e, hwritten, hle, rfl⟩ := (walk_string_iff htwo hbuf).mp h
            exact .string htwo hwritten hq hle
          · have hone : bufSz = 1 := by omega
            subst hone
            obtain ⟨rfl, rfl⟩ := walk_string_one h
            exact .emptyString rfl
    · rw [walk_single hstring hcontainer hbuf, Nat.zero_add, Option.some.injEq] at h
      rw [← h]
      exact .single hstring hcontainer

/-! ## The buffer -/

variable (formatG17 bufSz)

/-- For any memory before the call nothing changes behind the buffer, and a returned count below
the size of the buffer is the length of the text, which stands there. -/
structure RespectsBuffer (val : JsonValue) : Prop where
  inside : ∀ mem i, bufSz ≤ i → (jsonSerialize formatG17 val mem bufSz).mem i = mem i
  complete : ∀ mem, jsonSerializeResult (jsonSerialize formatG17 val mem bufSz) < bufSz →
    (List.range (jsonSerializeResult (jsonSerialize formatG17 val mem bufSz)).toNat).map
      (jsonSerialize formatG17 val mem bufSz).mem = jsonText formatG17 val

variable {formatG17 bufSz}

theorem textLength_single_lt {val : JsonValue} (hprintable : Every (PrintableNode formatG17) val)
    (hstring : ¬ IsString val) (hcontainer : ¬ IsContainer val) :
    textLength formatG17 val < 2 ^ 31 := by
  cases val with
  | null =>
      rw [textLength, jsonText]
      decide
  | bool value =>
      rw [textLength, jsonText]
      cases value <;> decide
  | number value => exact hprintable
  | string => exact absurd trivial hstring
  | array | object => exact absurd trivial hcontainer

theorem Harmless.eq_of_lt {val : JsonValue} {q : Nat} (h : Harmless formatG17 bufSz val q)
    (hq : q < bufSz) : q = textLength formatG17 val := by
  cases h with
  | fits | single => rfl
  | string | emptyString | dropped | leftOut => omega

theorem Harmless.le {val : JsonValue} {q : Nat} (h : Harmless formatG17 bufSz val q)
    (hprintable : Every (PrintableNode formatG17) val) : q ≤ bufSz + 1 ∨ q < 2 ^ 31 := by
  cases h with
  | single hstring hcontainer => exact .inr (textLength_single_lt hprintable hstring hcontainer)
  | fits | string | emptyString | dropped | leftOut => exact .inl (by omega)

theorem bmod_of_lt {n : Nat} (h : n < 2 ^ 31) : Int.bmod n (2 ^ 32) = n := by
  apply Int.bmod_eq_of_le <;> omega

theorem bmod_le {n : Nat} (h : 2 ^ 31 ≤ n) : Int.bmod n (2 ^ 32) ≤ n - 2 ^ 32 := by
  have hdiv := Int.emod_add_mul_ediv (n : Int) ((2 ^ 32 : Nat) : Int)
  rw [Int.bmod_def]
  split <;> omega

theorem result_of_lt {out : Output} (h : out.pos < 2 ^ 31) : jsonSerializeResult out = out.pos :=
  bmod_of_lt h

theorem result_le {out : Output} (h : 2 ^ 31 ≤ out.pos) :
    jsonSerializeResult out ≤ out.pos - 2 ^ 32 :=
  bmod_le h

theorem jsonSerialize_pos (hbuf : 1 ≤ bufSz) (val : JsonValue) (mem : Nat → UInt8) :
    (jsonSerialize formatG17 val mem bufSz).pos =
      (jsonSerializeInternal formatG17 bufSz val ⟨mem, 0⟩).pos := by
  rw [jsonSerialize, if_neg (by omega)]
  dsimp only
  split <;> rfl

theorem jsonSerialize_mem (hbuf : 1 ≤ bufSz) (val : JsonValue) (mem : Nat → UInt8) {i : Nat}
    (hi : bufSz ≤ i ∨ i < (jsonSerializeInternal formatG17 bufSz val ⟨mem, 0⟩).pos) :
    (jsonSerialize formatG17 val mem bufSz).mem i =
      (jsonSerializeInternal formatG17 bufSz val ⟨mem, 0⟩).mem i := by
  rw [jsonSerialize, if_neg (by omega)]
  dsimp only
  split
  · exact Function.update_of_ne (by omega) _ _
  · rfl

theorem map_of_wrote {out : Output} {text : CStr} (h : Wrote out text) :
    (List.range text.length).map out.mem = text := by
  apply List.ext_getElem
  · rw [List.length_map, List.length_range]
  · intro i hi hi'
    rw [List.getElem_map, List.getElem_range]
    exact h.2 i hi'

theorem map_jsonSerialize (hbuf : 1 ≤ bufSz) {val : JsonValue}
    (hfits : textLength formatG17 val < bufSz) (mem : Nat → UInt8) :
    (List.range (textLength formatG17 val)).map (jsonSerialize formatG17 val mem bufSz).mem =
      jsonText formatG17 val := by
  have hstart : Wrote ⟨mem, 0⟩ [] := ⟨rfl, nofun⟩
  have hwrote := @Wrote.serializeInternal formatG17 bufSz val _ _ hstart
    (by rw [List.length_nil, Nat.zero_add]; exact hfits)
  rw [List.nil_append] at hwrote
  rw [← map_of_wrote hwrote]
  apply List.map_congr_left
  intro i hi
  apply jsonSerialize_mem hbuf
  rw [hwrote.1]
  exact .inr (List.mem_range.mp hi)

theorem inside_iff_effect (hbuf : 1 ≤ bufSz) {val : JsonValue} {e : Effect}
    (hrun : ∀ mem, jsonSerializeInternal formatG17 bufSz val ⟨mem, 0⟩ = e.run mem) :
    (∀ mem i, bufSz ≤ i → (jsonSerialize formatG17 val mem bufSz).mem i = mem i) ↔
      e.Inside bufSz := by
  rw [Effect.inside_iff]
  constructor
  · intro h mem i hi
    rw [← hrun, ← jsonSerialize_mem hbuf val mem (.inl hi)]
    exact h mem i hi
  · intro h mem i hi
    rw [jsonSerialize_mem hbuf val mem (.inl hi), hrun]
    exact h mem i hi

/-- The serializer keeps to the buffer exactly in the harmless ways, with a position that an `int`
can hold. -/
theorem respects_buffer_iff (hbuf : 1 ≤ bufSz) (val : JsonValue)
    (hprintable : Every (PrintableNode formatG17) val) :
    RespectsBuffer formatG17 bufSz val ↔ ∃ q, Harmless formatG17 bufSz val q ∧ q < 2 ^ 31 := by
  obtain ⟨e, hrun, hfollows⟩ := @simulates_serializeInternal formatG17 bufSz val hprintable 0
  replace hfollows := hfollows (by omega)
  have hpos : ∀ mem, (jsonSerialize formatG17 val mem bufSz).pos = e.pos := by
    intro mem
    rw [jsonSerialize_pos hbuf, hrun]
    rfl
  constructor
  · intro hrespects
    have hinside := (inside_iff_effect hbuf hrun).mp hrespects.inside
    cases hwalk : walk formatG17 bufSz val 0 with
    | none =>
        rw [hwalk] at hfollows
        exact absurd hinside hfollows
    | some q =>
        rw [hwalk] at hfollows
        obtain ⟨_, hq, _⟩ := hfollows
        have hcount := hrespects.complete (fun _ => 0)
        generalize hout : jsonSerialize formatG17 val (fun _ => 0) bufSz = out at hcount
        have hend : out.pos = q := by
          rw [← hout, hpos, hq]
        -- A result below the size is the length of the text, and the text fits.
        have hfits : jsonSerializeResult out < bufSz →
            (jsonSerializeResult out).toNat = textLength formatG17 val ∧
              q = textLength formatG17 val := by
          intro hlt
          have hlength := congrArg List.length (hcount hlt)
          rw [List.length_map, List.length_range] at hlength
          refine ⟨hlength, ?_⟩
          have hsmall : textLength formatG17 val < bufSz := by
            rw [textLength, ← hlength]
            omega
          exact Option.some.inj (hwalk.symm.trans (walk_of_fits hsmall))
        have hint : q < 2 ^ 31 := by
          by_contra hbig
          have hle := @result_le out (by omega)
          by_cases hlt : jsonSerializeResult out < bufSz
          · obtain ⟨hlength, hsame⟩ := hfits hlt
            omega
          · rcases (harmless_of_walk hbuf hwalk (by omega)).le hprintable with hnear | hnear <;>
              omega
        refine ⟨q, ?_, hint⟩
        by_cases hlt : q < bufSz
        · have hresult := @result_of_lt out (by omega)
          obtain ⟨_, rfl⟩ := hfits (by omega)
          exact .fits hlt
        · exact harmless_of_walk hbuf hwalk (Nat.le_of_not_lt hlt)
  · rintro ⟨q, hharmless, hint⟩
    rw [walk_of_harmless hbuf hharmless] at hfollows
    obtain ⟨hinside, hq, _⟩ := hfollows
    constructor
    · exact (inside_iff_effect hbuf hrun).mpr hinside
    · intro mem hlt
      have hresult := @result_of_lt (jsonSerialize formatG17 val mem bufSz)
        (by rw [hpos, hq]; exact hint)
      rw [hpos, hq] at hresult
      have hlength := hharmless.eq_of_lt (by omega)
      rw [hresult, Int.toNat_natCast, hlength]
      exact map_jsonSerialize hbuf (by omega) mem

theorem respects_buffer_iff_nulls :
    1 ≤ 3 ∧ Every (PrintableNode fun _ => [48]) (.array [.null, .null]) ∧
      (RespectsBuffer (fun _ => [48]) 3 (.array [.null, .null]) ↔
        ∃ q, Harmless (fun _ => [48]) 3 (.array [.null, .null]) q ∧ q < 2 ^ 31) := by
  have hprintable : Every (PrintableNode fun _ => [48]) (.array [.null, .null]) :=
    ⟨trivial, trivial, trivial, trivial⟩
  exact ⟨by decide, hprintable, respects_buffer_iff (by decide) _ hprintable⟩

/-- The comma after the first `null` is stored at index 5 of a buffer of three bytes. -/
theorem comma_behind_buffer : ¬ RespectsBuffer (fun _ => [48]) 3 (.array [.null, .null]) := by
  intro hrespects
  have hcomma : (jsonSerialize (fun _ => [48]) (.array [.null, .null]) (fun _ => 0) 3).mem 5 =
      comma := by decide
  have hsame := hrespects.inside (fun _ => 0) 5 (by decide)
  rw [hcomma] at hsame
  exact absurd hsame (by decide)

end

end MiniBackend.WebServer.Proofs.SerializerBounds
