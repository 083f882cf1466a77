import MiniBackend.Lib.CString
import Mathlib.Tactic.IntervalCases

/-!
# Base64 groups over 32-bit words

Three bytes are packed into the low 24 bits of a word and cut into four sextets,
each of which indexes an alphabet; decoding looks the characters up and packs
them back.  The alphabet, the value that stands for a missing character and the
test that rejects a group are parameters, so that the padded, the unpadded and
the faulty variants of the codec share one set of lemmas.
-/

namespace MiniBackend.Lib.Base64

open MiniBackend.Lib.CString

/-! ## One group -/

def pack (a b c : UInt8) : BitVec 32 :=
  a.toBitVec.setWidth 32 <<< 16 ||| b.toBitVec.setWidth 32 <<< 8 ||| c.toBitVec.setWidth 32

def sextet (triple : BitVec 32) (shift : Nat) : BitVec 32 := (triple >>> shift) &&& 63

def join (v0 v1 v2 v3 : BitVec 32) : BitVec 32 :=
  v0 <<< 18 ||| v1 <<< 12 ||| v2 <<< 6 ||| v3

def byteAt (triple : BitVec 32) (shift : Nat) : UInt8 :=
  ⟨((triple >>> shift) &&& 255).setWidth 8⟩

theorem join_sextets (a b c : UInt8) :
    join (sextet (pack a b c) 18) (sextet (pack a b c) 12) (sextet (pack a b c) 6)
      (sextet (pack a b c) 0) = pack a b c := by
  ext i hi
  interval_cases i <;> simp [join, sextet, pack]

theorem byteAt_pack (a b c : UInt8) :
    byteAt (pack a b c) 16 = a ∧ byteAt (pack a b c) 8 = b ∧ byteAt (pack a b c) 0 = c := by
  refine ⟨?_, ?_, ?_⟩ <;>
  · apply UInt8.toBitVec_inj.mp
    ext i hi
    interval_cases i <;> simp [byteAt, pack]

theorem sextet_lt (triple : BitVec 32) (shift : Nat) : (sextet triple shift).toNat < 64 := by
  rw [sextet, BitVec.toNat_and]
  exact Nat.lt_of_le_of_lt Nat.and_le_right (by decide)

/-- OR-ing with an all-ones word: what a lookup value of `-1` does to its group. -/
theorem byteAt_allOnes (shift : Nat) (hs : shift ≤ 24) :
    byteAt (BitVec.allOnes 32) shift = 255 := by
  apply UInt8.toBitVec_inj.mp
  interval_cases shift <;> decide

/-! ## Encoding -/

def encodeGroup (alphabet : List UInt8) (a b c : UInt8) : List UInt8 :=
  [18, 12, 6, 0].map fun shift => alphabet.getD (sextet (pack a b c) shift).toNat 0

def encodeGroups (alphabet : List UInt8) : List UInt8 → List UInt8
  | [] => []
  | [a] => encodeGroup alphabet a 0 0
  | [a, b] => encodeGroup alphabet a b 0
  | a :: b :: c :: rest => encodeGroup alphabet a b c ++ encodeGroups alphabet rest

@[simp] theorem length_encodeGroup (alphabet : List UInt8) (a b c : UInt8) :
    (encodeGroup alphabet a b c).length = 4 := rfl

theorem length_encodeGroups (alphabet : List UInt8) (src : List UInt8) :
    (encodeGroups alphabet src).length = 4 * ((src.length + 2) / 3) := by
  fun_induction encodeGroups alphabet src with
  | case1 => rfl
  | case2 a => simp
  | case3 a b => simp
  | case4 a b c rest ih =>
      rw [List.length_append, ih, length_encodeGroup]
      simp only [List.length_cons]
      omega

theorem mem_encodeGroup {alphabet : List UInt8} (halph : alphabet.length = 64)
    {a b c x : UInt8} (hx : x ∈ encodeGroup alphabet a b c) : x ∈ alphabet := by
  rw [encodeGroup, List.mem_map] at hx
  obtain ⟨shift, -, rfl⟩ := hx
  have hlt := sextet_lt (pack a b c) shift
  rw [List.getD_eq_getElem?_getD, List.getElem?_eq_getElem (by omega), Option.getD_some]
  exact List.getElem_mem _

theorem mem_encodeGroups {alphabet : List UInt8} (halph : alphabet.length = 64)
    {src : List UInt8} {x : UInt8} (hx : x ∈ encodeGroups alphabet src) : x ∈ alphabet := by
  fun_induction encodeGroups alphabet src with
  | case1 => simp at hx
  | case2 a => exact mem_encodeGroup halph hx
  | case3 a b => exact mem_encodeGroup halph hx
  | case4 a b c rest ih =>
      rcases List.mem_append.mp hx with hx | hx
      · exact mem_encodeGroup halph hx
      · exact ih hx

/-! ## Decoding -/

def put (cap : Nat) (dst : List UInt8) (b : UInt8) : List UInt8 :=
  if dst.length < cap then dst ++ [b] else dst

/-- The four looked-up values of one group. -/
structure Quad where
  v0 : Int
  v1 : Int
  v2 : Int
  v3 : Int
deriving DecidableEq

def Quad.triple (q : Quad) : BitVec 32 :=
  join (.ofInt 32 q.v0) (.ofInt 32 q.v1) (.ofInt 32 q.v2) (.ofInt 32 q.v3)

def Quad.bytes (q : Quad) : List UInt8 :=
  [byteAt q.triple 16, byteAt q.triple 8, byteAt q.triple 0]

@[simp] theorem Quad.length_bytes (q : Quad) : q.bytes.length = 3 := rfl

/-- Look the characters up four at a time, `missing` standing for those past
the end. -/
def quads (look : UInt8 → Int) (missing : Int) : List UInt8 → List Quad
  | [] => []
  | [c0] => [⟨look c0, missing, missing, missing⟩]
  | [c0, c1] => [⟨look c0, look c1, missing, missing⟩]
  | [c0, c1, c2] => [⟨look c0, look c1, look c2, missing⟩]
  | c0 :: c1 :: c2 :: c3 :: rest =>
      ⟨look c0, look c1, look c2, look c3⟩ :: quads look missing rest

/-- The decoder's loop: a rejected group stops it with what was written before. -/
def decodeLoop (bad : Quad → Bool) (cap : Nat) : List Quad → List UInt8 → Bool × List UInt8
  | [], dst => (true, dst)
  | q :: qs, dst =>
      if bad q then (false, dst) else decodeLoop bad cap qs (q.bytes.foldl (put cap) dst)

def decodeAll (bad : Quad → Bool) (qs : List Quad) : Option (List UInt8) :=
  if qs.any bad then none else some (qs.flatMap Quad.bytes)

theorem length_quads (look : UInt8 → Int) (missing : Int) (src : List UInt8) :
    (quads look missing src).length = (src.length + 3) / 4 := by
  fun_induction quads look missing src with
  | case1 | case2 | case3 | case4 => simp
  | case5 c0 c1 c2 c3 rest ih =>
      simp only [List.length_cons, ih]
      omega

theorem exists_mem_quads (look : UInt8 → Int) (missing : Int) {src : List UInt8} {c : UInt8}
    (hc : c ∈ src) : ∃ q ∈ quads look missing src,
      q.v0 = look c ∨ q.v1 = look c ∨ q.v2 = look c ∨ q.v3 = look c := by
  fun_induction quads look missing src with
  | case1 => cases hc
  | case2 | case3 | case4 => simp at hc ⊢; grind
  | case5 c0 c1 c2 c3 rest ih =>
      by_cases hrest : c ∈ rest
      · obtain ⟨q, hq, hlook⟩ := ih hrest
        exact ⟨q, List.mem_cons_of_mem _ hq, hlook⟩
      · refine ⟨_, List.mem_cons_self, ?_⟩
        simp only [List.mem_cons, hrest, or_false] at hc
        grind

theorem quads_append (look : UInt8 → Int) (missing : Int) (c0 c1 c2 c3 : UInt8)
    (rest : List UInt8) :
    quads look missing ([c0, c1, c2, c3] ++ rest) =
      ⟨look c0, look c1, look c2, look c3⟩ :: quads look missing rest := rfl

theorem length_flatMap_bytes (qs : List Quad) :
    (qs.flatMap Quad.bytes).length = 3 * qs.length := by
  simp [List.length_flatMap, Nat.mul_comm]

theorem foldl_put (cap : Nat) (dst bytes : List UInt8) (hdst : dst.length ≤ cap) :
    bytes.foldl (put cap) dst = (dst ++ bytes).take cap := by
  induction bytes generalizing dst with
  | nil => simp [List.take_of_length_le hdst]
  | cons b bytes ih =>
      rw [List.foldl_cons, put]
      split
      · rename_i hlt
        rw [ih (dst ++ [b]) (by rw [List.length_append]; exact hlt), List.append_assoc]
        rfl
      · rename_i hge
        have hcap : dst.length = cap := by omega
        rw [ih dst hdst, ← hcap, List.take_left, List.take_left]

theorem take_take_append (cap : Nat) (xs ys : List UInt8) :
    (xs.take cap ++ ys).take cap = (xs ++ ys).take cap := by
  rw [List.take_append, List.take_append, List.take_take, Nat.min_self, List.length_take]
  congr 2
  omega

/-- The bounded loop writes the unbounded output up to its capacity. -/
theorem decodeLoop_eq (bad : Quad → Bool) (cap : Nat) (qs : List Quad) (dst : List UInt8)
    (hdst : dst.length ≤ cap) :
    match decodeAll bad qs with
    | none => (decodeLoop bad cap qs dst).1 = false
    | some out => decodeLoop bad cap qs dst = (true, (dst ++ out).take cap) := by
  induction qs generalizing dst with
  | nil => simp [decodeAll, decodeLoop, List.take_of_length_le hdst]
  | cons q qs ih =>
      by_cases hbad : bad q = true
      · simp [decodeAll, decodeLoop, hbad]
      · have hput := foldl_put cap dst q.bytes hdst
        have hlen : (q.bytes.foldl (put cap) dst).length ≤ cap := by
          rw [hput, List.length_take]
          exact Nat.min_le_left _ _
        have hrest := ih _ hlen
        by_cases hany : qs.any bad = true
        · simpa [decodeAll, decodeLoop, hbad, hany] using hrest
        · have htail : decodeLoop bad cap qs (q.bytes.foldl (put cap) dst) =
              (true, (q.bytes.foldl (put cap) dst ++ qs.flatMap Quad.bytes).take cap) := by
            simpa [decodeAll, hany] using hrest
          have hall : decodeAll bad (q :: qs) = some (q.bytes ++ qs.flatMap Quad.bytes) := by
            simp [decodeAll, hbad, hany]
          rw [hall]
          simp only [decodeLoop, hbad, Bool.false_eq_true, if_false, htail]
          rw [hput, take_take_append, List.append_assoc]

theorem decodeLoop_of_decodeAll {bad : Quad → Bool} {qs : List Quad} {out : List UInt8}
    (cap : Nat) (hall : decodeAll bad qs = some out) :
    decodeLoop bad cap qs [] = (true, out.take cap) := by
  have h := decodeLoop_eq bad cap qs [] (Nat.zero_le cap)
  simpa only [hall, List.nil_append] using h

theorem decodeLoop_of_decodeAll_none {bad : Quad → Bool} {qs : List Quad}
    (cap : Nat) (hall : decodeAll bad qs = none) :
    (decodeLoop bad cap qs []).1 = false := by
  have h := decodeLoop_eq bad cap qs [] (Nat.zero_le cap)
  simpa only [hall] using h

/-- What a decoder leaves behind: its return value, the bytes it wrote, and the
value of `*dst_len`. -/
structure Decoded where
  rc : Int
  written : List UInt8
  len : Nat

/-- Run the loop and subtract the padding from a `size_t`; a failed decoding
leaves `*dst_len` alone. -/
def decodeInto (bad : Quad → Bool) (cap pad : Nat) (qs : List Quad) : Decoded :=
  match decodeLoop bad cap qs [] with
  | (false, dst) => { rc := -1, written := dst, len := cap }
  | (true, dst) => { rc := 0, written := dst, len := sizeSub dst.length pad }

theorem decodeInto_of_decodeAll {bad : Quad → Bool} {qs : List Quad} {out : List UInt8}
    (cap pad : Nat) (hall : decodeAll bad qs = some out) :
    decodeInto bad cap pad qs =
      { rc := 0, written := out.take cap, len := sizeSub (min cap out.length) pad } := by
  simp only [decodeInto, decodeLoop_of_decodeAll cap hall, List.length_take]

theorem decodeInto_of_decodeAll_none {bad : Quad → Bool} {qs : List Quad}
    (cap pad : Nat) (hall : decodeAll bad qs = none) :
    (decodeInto bad cap pad qs).rc = -1 ∧ (decodeInto bad cap pad qs).len = cap := by
  have hfail := decodeLoop_of_decodeAll_none cap hall
  unfold decodeInto
  cases hloop : decodeLoop bad cap qs [] with
  | mk ok dst =>
      rw [hloop] at hfail
      simp only at hfail
      subst hfail
      exact ⟨rfl, rfl⟩

/-! ## Full groups decode to what was encoded -/

/-- A decoding table: the position in the alphabet, `other` for the rest. -/
def lookup (alphabet : List UInt8) (other : UInt8 → Int) (c : UInt8) : Int :=
  match alphabet.idxOf? c with
  | some i => i
  | none => other c

theorem lookup_getD {alphabet : List UInt8} (hnodup : alphabet.Nodup)
    (other : UInt8 → Int) {i : Nat} (hi : i < alphabet.length) :
    lookup alphabet other (alphabet.getD i 0) = i := by
  have hget : alphabet.getD i 0 = alphabet[i] := by
    rw [List.getD_eq_getElem?_getD, List.getElem?_eq_getElem hi, Option.getD_some]
  have hidx : alphabet.idxOf? (alphabet[i]) = some i := by
    rw [List.idxOf?_eq_some_iff]
    exact ⟨hi, rfl, fun j hj => fun heq => by
      have := (List.Nodup.getElem_inj_iff hnodup).mp heq
      omega⟩
  rw [lookup, hget, hidx]

def groupQuad (a b c : UInt8) : Quad :=
  ⟨(sextet (pack a b c) 18).toNat, (sextet (pack a b c) 12).toNat,
    (sextet (pack a b c) 6).toNat, (sextet (pack a b c) 0).toNat⟩

def groupQuads : List UInt8 → List Quad
  | a :: b :: c :: rest => groupQuad a b c :: groupQuads rest
  | _ => []

/-- A group read back with the values its own alphabet positions have. -/
theorem bytes_groupQuad (a b c : UInt8) : (groupQuad a b c).bytes = [a, b, c] := by
  have hword : (groupQuad a b c).triple = pack a b c := by
    simp only [groupQuad, Quad.triple, BitVec.ofInt_natCast, BitVec.ofNat_toNat,
      BitVec.setWidth_eq]
    exact join_sextets a b c
  obtain ⟨ha, hb, hc⟩ := byteAt_pack a b c
  rw [Quad.bytes, hword, ha, hb, hc]

theorem flatMap_bytes_groupQuads {src : List UInt8} (h : src.length % 3 = 0) :
    (groupQuads src).flatMap Quad.bytes = src := by
  fun_induction groupQuads src with
  | case1 a b c rest ih =>
      simp only [List.length_cons] at h
      rw [List.flatMap_cons, bytes_groupQuad, ih (by omega)]
      rfl
  | case2 src hsrc =>
      rcases src with _ | ⟨a, _ | ⟨b, _ | ⟨c, rest⟩⟩⟩
      · rfl
      · simp at h
      · simp at h
      · exact absurd rfl (hsrc a b c rest)

theorem nonneg_of_mem_groupQuads {src : List UInt8} {q : Quad} (hq : q ∈ groupQuads src) :
    0 ≤ q.v0 ∧ 0 ≤ q.v1 ∧ 0 ≤ q.v2 ∧ 0 ≤ q.v3 := by
  fun_induction groupQuads src with
  | case1 a b c rest ih =>
      rcases List.mem_cons.mp hq with rfl | hq
      · simp [groupQuad]
      · exact ih hq
  | case2 src _ => simp at hq

/-- A test that rejects only negative values rejects no group of bytes. -/
theorem any_groupQuads {bad : Quad → Bool}
    (hbad : ∀ q : Quad, 0 ≤ q.v0 → 0 ≤ q.v1 → 0 ≤ q.v2 → 0 ≤ q.v3 → bad q = false)
    (src : List UInt8) : (groupQuads src).any bad = false := by
  rw [List.any_eq_false]
  intro q hq
  obtain ⟨h0, h1, h2, h3⟩ := nonneg_of_mem_groupQuads hq
  rw [hbad q h0 h1 h2 h3]
  decide

theorem encodeGroups_append (alphabet : List UInt8) {full : List UInt8}
    (h : full.length % 3 = 0) (tail : List UInt8) :
    encodeGroups alphabet (full ++ tail) =
      encodeGroups alphabet full ++ encodeGroups alphabet tail := by
  fun_induction encodeGroups alphabet full with
  | case1 => rfl
  | case2 a => simp at h
  | case3 a b => simp at h
  | case4 a b c rest ih =>
      simp only [List.length_cons] at h
      simp only [List.cons_append, encodeGroups, ih (by omega), List.append_assoc]

section Lookup

variable {alphabet : List UInt8} (hnodup : alphabet.Nodup) (hlength : alphabet.length = 64)
include hnodup hlength

theorem quads_encodeGroup_append (other : UInt8 → Int) (missing : Int) (a b c : UInt8)
    (rest : List UInt8) :
    quads (lookup alphabet other) missing (encodeGroup alphabet a b c ++ rest) =
      groupQuad a b c :: quads (lookup alphabet other) missing rest := by
  have hlook (shift : Nat) :
      lookup alphabet other (alphabet.getD (sextet (pack a b c) shift).toNat 0) =
        (sextet (pack a b c) shift).toNat :=
    lookup_getD hnodup other (by rw [hlength]; exact sextet_lt _ _)
  simp only [encodeGroup, List.map_cons, List.map_nil]
  rw [quads_append]
  simp only [hlook, groupQuad]

theorem quads_encodeGroups_append (other : UInt8 → Int) (missing : Int) {src : List UInt8}
    (h : src.length % 3 = 0) (rest : List UInt8) :
    quads (lookup alphabet other) missing (encodeGroups alphabet src ++ rest) =
      groupQuads src ++ quads (lookup alphabet other) missing rest := by
  fun_induction encodeGroups alphabet src with
  | case1 => rfl
  | case2 a => simp at h
  | case3 a b => simp at h
  | case4 a b c src ih =>
      simp only [List.length_cons] at h
      rw [List.append_assoc, quads_encodeGroup_append hnodup hlength, ih (by omega)]
      rfl

end Lookup

/-! ## Text without padding

The last group may lack one or two characters; where the decoder fills them up with
zeros, as the encoder did with the bytes, nothing is lost.
-/

def zeroFilled (src : List UInt8) : List UInt8 :=
  src ++ List.replicate ((3 - src.length % 3) % 3) 0

def encodeUnpadded (alphabet src : List UInt8) : List UInt8 :=
  (encodeGroups alphabet src).take
    ((encodeGroups alphabet src).length - (3 - src.length % 3) % 3)

theorem length_zeroFilled (src : List UInt8) :
    (zeroFilled src).length = 3 * ((src.length + 2) / 3) := by
  rw [zeroFilled, List.length_append, List.length_replicate]
  omega

theorem length_encodeUnpadded (alphabet src : List UInt8) :
    (encodeUnpadded alphabet src).length =
      4 * ((src.length + 2) / 3) - (3 - src.length % 3) % 3 := by
  rw [encodeUnpadded, List.length_take, length_encodeGroups]
  omega

theorem mem_encodeUnpadded {alphabet : List UInt8} (halph : alphabet.length = 64)
    {src : List UInt8} {x : UInt8} (hx : x ∈ encodeUnpadded alphabet src) : x ∈ alphabet :=
  mem_encodeGroups halph (List.mem_of_mem_take hx)

theorem encodeUnpadded_cons (alphabet : List UInt8) (a b c : UInt8) (rest : List UInt8) :
    encodeUnpadded alphabet (a :: b :: c :: rest) =
      encodeGroup alphabet a b c ++ encodeUnpadded alphabet rest := by
  have hpad : (3 - (a :: b :: c :: rest).length % 3) % 3 = (3 - rest.length % 3) % 3 := by
    simp only [List.length_cons]
    omega
  have hlength := length_encodeGroups alphabet rest
  rw [encodeUnpadded, hpad, encodeGroups, List.length_append, length_encodeGroup,
    Nat.add_sub_assoc (by omega), ← length_encodeGroup alphabet a b c,
    List.take_length_add_append]
  rfl

theorem zeroFilled_cons (a b c : UInt8) (rest : List UInt8) :
    zeroFilled (a :: b :: c :: rest) = a :: b :: c :: zeroFilled rest := by
  have hpad : (3 - (a :: b :: c :: rest).length % 3) % 3 = (3 - rest.length % 3) % 3 := by
    simp only [List.length_cons]
    omega
  rw [zeroFilled, hpad]
  rfl

/-! The sextets of missing bytes are zero. -/

theorem sextet_pack_zero (a b : UInt8) : sextet (pack a b 0) 0 = 0 := by
  have hword : pack a b 0 = a.toBitVec.setWidth 32 <<< 16 ||| b.toBitVec.setWidth 32 <<< 8 := by
    simp [pack]
  rw [hword]
  ext i hi
  interval_cases i <;> simp [sextet]

theorem sextet_pack_zero_zero (a : UInt8) : sextet (pack a 0 0) 6 = 0 := by
  have hword : pack a 0 0 = a.toBitVec.setWidth 32 <<< 16 := by simp [pack]
  rw [hword]
  ext i hi
  interval_cases i <;> simp [sextet]

theorem quads_encodeUnpadded {alphabet : List UInt8} (hnodup : alphabet.Nodup)
    (hlength : alphabet.length = 64) (other : UInt8 → Int) (src : List UInt8) :
    quads (lookup alphabet other) 0 (encodeUnpadded alphabet src) =
      groupQuads (zeroFilled src) := by
  have hlook (a b c : UInt8) (shift : Nat) :
      lookup alphabet other (alphabet.getD (sextet (pack a b c) shift).toNat 0) =
        (sextet (pack a b c) shift).toNat :=
    lookup_getD hnodup other (by rw [hlength]; exact sextet_lt _ _)
  fun_induction encodeGroups alphabet src with
  | case1 => rfl
  | case2 a =>
      have htext : encodeUnpadded alphabet [a] = (encodeGroup alphabet a 0 0).take 2 := rfl
      have hthird := sextet_pack_zero_zero a
      have hlast := sextet_pack_zero a 0
      rw [htext]
      simp only [encodeGroup, List.map_cons, List.take_succ_cons, List.take_zero, quads, hlook]
      simp [zeroFilled, List.replicate, groupQuads, groupQuad, hthird, hlast]
  | case3 a b =>
      have htext : encodeUnpadded alphabet [a, b] = (encodeGroup alphabet a b 0).take 3 := rfl
      have hlast := sextet_pack_zero a b
      rw [htext]
      simp only [encodeGroup, List.map_cons, List.take_succ_cons, List.take_zero, quads, hlook]
      simp [zeroFilled, groupQuads, groupQuad, hlast]
  | case4 a b c rest ih =>
      rw [encodeUnpadded_cons, quads_encodeGroup_append hnodup hlength, ih, zeroFilled_cons,
        groupQuads]

/-- A value of `-1` in the third or fourth place turns the whole group to ones. -/
theorem bytes_of_minus_one (v0 v1 v2 : Int) :
    Quad.bytes ⟨v0, v1, v2, -1⟩ = [255, 255, 255] := by
  have hword : Quad.triple ⟨v0, v1, v2, -1⟩ = BitVec.allOnes 32 := by
    have hneg : BitVec.ofInt 32 (-1) = BitVec.allOnes 32 := by decide
    simp only [Quad.triple, join, hneg, BitVec.or_allOnes]
  rw [Quad.bytes, hword, byteAt_allOnes 16 (by omega), byteAt_allOnes 8 (by omega),
    byteAt_allOnes 0 (by omega)]

end MiniBackend.Lib.Base64
