import MiniBackend.WebServer.Websocket
import MiniBackend.Lib.CString
import Mathlib.Data.List.GetD

/-!
# Frames on the wire

A frame is its two first bytes, the rest of a long length, the masking key and the masked payload.
The decoder reads the same pieces, and each of them is refused when it is cut.
-/

namespace MiniBackend.WebServer.Proofs.FrameRoundTrip

open MiniBackend.Lib.ByteNumbers MiniBackend.Lib.CString MiniBackend.WebServer.Websocket

def payload (frame : WsFrame) : List UInt8 :=
  (frame.payloadData.getD []).take frame.payloadLen.toNat

/-- A frame as it may be sent: the payload is there, and not too long. -/
structure Sendable (frame : WsFrame) : Prop where
  opcode_lt : frame.opcode < 16
  length_eq : (payload frame).length = frame.payloadLen.toNat
  length_le : frame.payloadLen.toNat ≤ wsMaxFrameSize

structure SameFrame (frame frame' : WsFrame) : Prop where
  fin : frame'.fin = frame.fin
  opcode : frame'.opcode = frame.opcode
  masked : frame'.masked = frame.masked
  maskKey : frame.masked = true → frame'.maskKey = frame.maskKey
  payloadLen : frame'.payloadLen = frame.payloadLen
  payload : payload frame' = payload frame

def bytesAt (out : Nat → UInt8) (n : Nat) : List UInt8 := (List.range n).map out

/-! ## Masking -/

theorem length_wsMaskPayload (data : List UInt8) (key : Fin 4 → UInt8) :
    (wsMaskPayload data key).length = data.length := List.length_mapIdx

/-- The mask is its own inverse. -/
theorem wsMaskPayload_twice (data : List UInt8) (key : Fin 4 → UInt8) :
    wsMaskPayload (wsMaskPayload data key) key = data := by
  apply List.ext_getElem
  · rw [length_wsMaskPayload, length_wsMaskPayload]
  · intro i hi hi'
    simp only [wsMaskPayload, List.getElem_mapIdx]
    rw [UInt8.xor_assoc, UInt8.xor_self, UInt8.xor_zero]

/-! ## What is sent -/

def maskedPayload (frame : WsFrame) : List UInt8 :=
  if frame.masked then wsMaskPayload (payload frame) frame.maskKey else payload frame

def keyBytes (frame : WsFrame) : List UInt8 :=
  if frame.masked then List.ofFn frame.maskKey else []

def firstByte (frame : WsFrame) : UInt8 :=
  (if frame.fin then 0x80 else 0x00) ||| (frame.opcode &&& 0x0F)

/-- The length as far as seven bits hold it, and the bytes of a longer one. -/
def lowLength (plen : Nat) : UInt8 :=
  if plen ≤ wsMaxPayload126 then UInt8.ofNat plen
  else if plen ≤ 65535 then wsPayload16bit else wsPayload64bit

def highLength (plen : Nat) : List UInt8 :=
  if plen ≤ wsMaxPayload126 then [] else if plen ≤ 65535 then beBytes 2 plen else beBytes 8 plen

def wire (frame : WsFrame) : List UInt8 := frameHeader frame ++ maskedPayload frame

theorem lengthBytes_eq (masked : Bool) (plen : Nat) :
    lengthBytes masked plen = (maskBit masked ||| lowLength plen) :: highLength plen := by
  unfold lengthBytes lowLength highLength
  split
  · rfl
  · split <;> rfl

theorem frameHeader_eq (frame : WsFrame) :
    frameHeader frame = firstByte frame ::
      (maskBit frame.masked ||| lowLength frame.payloadLen.toNat) ::
        (highLength frame.payloadLen.toNat ++ keyBytes frame) := by
  rw [frameHeader, lengthBytes_eq]
  rfl

theorem wire_eq (frame : WsFrame) :
    wire frame = firstByte frame :: (maskBit frame.masked ||| lowLength frame.payloadLen.toNat) ::
      (highLength frame.payloadLen.toNat ++ (keyBytes frame ++ maskedPayload frame)) := by
  rw [wire, frameHeader_eq, List.cons_append, List.cons_append, List.append_assoc]

theorem length_highLength_le (plen : Nat) : (highLength plen).length ≤ 8 := by
  rw [highLength]
  split
  · exact Nat.zero_le 8
  · split
    · rw [length_beBytes]
      decide
    · rw [length_beBytes]

theorem length_keyBytes (frame : WsFrame) :
    (keyBytes frame).length = if frame.masked then 4 else 0 := by
  rw [keyBytes]
  split
  · rw [List.length_ofFn]
  · rfl

theorem length_maskedPayload {frame : WsFrame} (hframe : Sendable frame) :
    (maskedPayload frame).length = frame.payloadLen.toNat := by
  rw [maskedPayload]
  split
  · rw [length_wsMaskPayload, hframe.length_eq]
  · exact hframe.length_eq

theorem length_bytesAt (out : Nat → UInt8) (n : Nat) : (bytesAt out n).length = n := by
  rw [bytesAt, List.length_map, List.length_range]

theorem take_bytesAt (out : Nat → UInt8) {k n : Nat} (hk : k ≤ n) :
    (bytesAt out n).take k = bytesAt out k := by
  rw [bytesAt, bytesAt, ← List.map_take, List.take_range, Nat.min_eq_left hk]

theorem bytesAt_store (mem : Nat → UInt8) (pos : Nat) (bytes : List UInt8) :
    bytesAt (store mem pos bytes) (pos + bytes.length) = bytesAt mem pos ++ bytes := by
  apply List.ext_getElem
  · rw [length_bytesAt, List.length_append, length_bytesAt]
  · intro i hi hi'
    rw [length_bytesAt] at hi
    simp only [bytesAt, List.getElem_map, List.getElem_range, store]
    by_cases hold : i < pos
    · rw [if_neg (by omega), List.getElem_append_left (by simpa using hold), List.getElem_map,
        List.getElem_range]
    · rw [if_pos (by omega), List.getElem_append_right (by simpa using hold),
        List.getD_eq_getElem _ _ (by omega)]
      simp

/-- The encoder writes the frame as it is sent. -/
theorem wsEncodeFrame_eq {frame : WsFrame} (hframe : Sendable frame) (out : Nat → UInt8)
    {outSz : Nat} (hroom : (wire frame).length ≤ outSz) :
    (wsEncodeFrame frame out outSz).1 = (wire frame).length ∧
      bytesAt (wsEncodeFrame frame out outSz).2 (wire frame).length = wire frame := by
  have hlength : (wire frame).length = (frameHeader frame).length + frame.payloadLen.toNat := by
    rw [wire, List.length_append, length_maskedPayload hframe]
  have hheader : (frameHeader frame).length ≤ 14 := by
    have hhigh := length_highLength_le frame.payloadLen.toNat
    have hkey := length_keyBytes frame
    rw [frameHeader_eq, List.length_cons, List.length_cons, List.length_append, hkey]
    split <;> omega
  have hsize : frame.payloadLen.toNat ≤ 64 * 1024 := hframe.length_le
  have hmod : ((frameHeader frame).length + frame.payloadLen.toNat) % 2 ^ 64 =
      (wire frame).length := by
    rw [hlength, Nat.mod_eq_of_lt (by omega)]
  have hcount : Int.bmod (wire frame).length (2 ^ 32) = (wire frame).length := by
    apply Int.bmod_eq_of_le <;> omega
  have hfirst : bytesAt (store out 0 (frameHeader frame)) (frameHeader frame).length =
      frameHeader frame := by
    have hstore := bytesAt_store out 0 (frameHeader frame)
    rwa [Nat.zero_add] at hstore
  rw [wsEncodeFrame]
  simp only [hmod]
  rw [if_neg (Nat.not_lt_of_le hroom)]
  cases hdata : frame.payloadData with
  | none =>
      have hnil : payload frame = [] := by
        rw [payload, hdata]
        exact List.take_nil
      have hzero : frame.payloadLen.toNat = 0 := by
        rw [← hframe.length_eq, hnil]
        rfl
      have hwire : wire frame = frameHeader frame := by
        have hmasked := length_maskedPayload hframe
        rw [hzero] at hmasked
        rw [wire, List.length_eq_zero_iff.mp hmasked, List.append_nil]
      dsimp only
      rw [hwire] at hcount ⊢
      exact ⟨hcount, hfirst⟩
  | some data =>
      have hbody : (if frame.masked = true then
          wsMaskPayload (data.take frame.payloadLen.toNat) frame.maskKey
          else data.take frame.payloadLen.toNat) = maskedPayload frame := by
        rw [maskedPayload, payload, hdata]
        rfl
      dsimp only
      refine ⟨hcount, ?_⟩
      rw [hbody, hlength, ← length_maskedPayload hframe, bytesAt_store, hfirst]
      rfl

/-! ## What is read -/

theorem firstByte_bits : ∀ (opcode : UInt8) (fin : Bool),
    decide (((if fin then 0x80 else 0x00) ||| (opcode &&& 0x0F)) &&& 0x80 ≠ 0) = fin ∧
      ((if fin then 0x80 else 0x00) ||| (opcode &&& 0x0F)) &&& 0x0F = opcode &&& 0x0F := by
  apply forall_byte
  decide +kernel

theorem opcode_bits : ∀ opcode : UInt8, opcode < 16 → opcode &&& 0x0F = opcode := by
  apply forall_byte
  decide +kernel

theorem secondByte_bits : ∀ low : UInt8, low < 128 → ∀ masked,
    decide ((maskBit masked ||| low) &&& 0x80 ≠ 0) = masked ∧
      (maskBit masked ||| low) &&& 0x7F = low := by
  apply forall_byte
  decide +kernel

theorem lowLength_lt (plen : Nat) : lowLength plen < 128 := by
  rw [lowLength]
  split
  · next hle =>
      have hlt : plen < 126 := Nat.lt_succ_of_le hle
      rw [UInt8.lt_iff_toNat_lt, UInt8.toNat_ofNat', Nat.mod_eq_of_lt (by omega)]
      exact hlt.trans (by decide)
  · split <;> decide

theorem decodeHeader_eq {frame : WsFrame} (hframe : Sendable frame) :
    decodeHeader (firstByte frame) (maskBit frame.masked ||| lowLength frame.payloadLen.toNat) =
      { zeroFrame with fin := frame.fin, opcode := frame.opcode, masked := frame.masked } := by
  obtain ⟨hfin, hopcode⟩ := firstByte_bits frame.opcode frame.fin
  have hmasked := (secondByte_bits _ (lowLength_lt frame.payloadLen.toNat) frame.masked).1
  rw [opcode_bits _ hframe.opcode_lt] at hfin hopcode
  rw [decodeHeader, firstByte, opcode_bits _ hframe.opcode_lt, hfin, hopcode, hmasked]

theorem take_beBytes {n v : Nat} (hv : v < 256 ^ n) (rest : List UInt8) :
    beNat ((beBytes n v ++ rest).take n) = v ∧ (beBytes n v ++ rest).drop n = rest := by
  rw [List.take_left' (length_beBytes n v), List.drop_left' (length_beBytes n v),
    beNat_beBytes hv]
  exact ⟨rfl, rfl⟩

theorem decodeLength_eq {plen : Nat} (hle : plen ≤ wsMaxFrameSize) (rest : List UInt8) :
    decodeLength (lowLength plen) (highLength plen ++ rest) = some (plen, rest) := by
  have hmax : wsMaxFrameSize = 65536 := rfl
  have hroom : ∀ n, ¬ (beBytes n plen ++ rest).length < n := by
    intro n
    rw [List.length_append, length_beBytes]
    omega
  rw [lowLength, highLength]
  split
  · next hshort =>
      have hlt : plen < 126 := Nat.lt_succ_of_le hshort
      have hnat : (UInt8.ofNat plen).toNat = plen := by
        rw [UInt8.toNat_ofNat', Nat.mod_eq_of_lt (by omega)]
      have hne : ∀ mark : UInt8, 126 ≤ mark.toNat → UInt8.ofNat plen ≠ mark := by
        rintro mark hmark rfl
        omega
      rw [decodeLength, if_neg (hne _ (by decide)), if_neg (hne _ (by decide)), hnat]
      rfl
  · split
    · obtain ⟨htake, hdrop⟩ := @take_beBytes 2 plen (by omega) rest
      rw [decodeLength, if_pos rfl, if_neg (hroom 2), htake, hdrop]
    · obtain ⟨htake, hdrop⟩ := @take_beBytes 8 plen (by omega) rest
      rw [decodeLength, if_neg (by decide), if_pos rfl, if_neg (hroom 8), htake, hdrop]

/-- A long length is refused when it is cut. -/
theorem decodeLength_take {plen k : Nat} (hk : k < (highLength plen).length) :
    decodeLength (lowLength plen) ((highLength plen).take k) = none := by
  have hcut : ((highLength plen).take k).length = k := by
    rw [List.length_take, Nat.min_eq_left hk.le]
  rw [highLength] at hk hcut ⊢
  rw [lowLength]
  split at hk
  · cases hk
  · next hlong =>
      rw [if_neg hlong] at hcut ⊢
      rw [if_neg hlong]
      split at hk
      · next hmiddle =>
          rw [if_pos hmiddle] at hcut ⊢
          rw [length_beBytes] at hk
          rw [if_pos hmiddle, decodeLength, if_pos rfl, if_pos (by omega)]
      · next hlongest =>
          rw [if_neg hlongest] at hcut ⊢
          rw [length_beBytes] at hk
          rw [if_neg hlongest, decodeLength, if_neg (by decide), if_pos rfl, if_pos (by omega)]

/-- The key comes back. -/
theorem getD_ofFn (key : Fin 4 → UInt8) (rest : List UInt8) :
    (fun j : Fin 4 => (List.ofFn key ++ rest).getD j 0) = key := by
  funext j
  have hj : j.val < (List.ofFn key).length := by
    rw [List.length_ofFn]
    exact j.isLt
  rw [List.getD_append _ _ _ _ hj, List.getD_eq_getElem _ _ hj, List.getElem_ofFn]

theorem payload_eq {data : List UInt8} {frame : WsFrame} (hframe : Sendable frame)
    (hdata : data = payload frame) {frame' : WsFrame} (hlen : frame'.payloadLen = frame.payloadLen)
    (hpayload : frame'.payloadData = some data) : payload frame' = payload frame := by
  rw [payload, hlen, hpayload, Option.getD_some, hdata]
  exact List.take_of_length_le hframe.length_eq.le

theorem payload_empty {frame : WsFrame} (hframe : Sendable frame)
    (hzero : frame.payloadLen.toNat = 0) {frame' : WsFrame} (hpayload : frame'.payloadData = none) :
    payload frame' = payload frame := by
  have hnil : payload frame = [] := by
    apply List.length_eq_zero_iff.mp
    rw [hframe.length_eq, hzero]
  rw [hnil, payload, hpayload]
  exact List.take_nil

theorem decodePayload_eq {frame header : WsFrame} (hframe : Sendable frame)
    (hheader : header =
      { zeroFrame with fin := frame.fin, opcode := frame.opcode, masked := frame.masked })
    (extra : List UInt8) :
    ∃ frame', decodePayload header frame.payloadLen.toNat
        (keyBytes frame ++ (maskedPayload frame ++ extra)) = (0, frame') ∧
      SameFrame frame frame' := by
  have hlength := length_maskedPayload hframe
  have htake : (maskedPayload frame ++ extra).take frame.payloadLen.toNat = maskedPayload frame :=
    List.take_left' hlength
  have henough : ¬ (maskedPayload frame ++ extra).length < frame.payloadLen.toNat := by
    rw [List.length_append, hlength]
    omega
  have hlen : UInt64.ofNat frame.payloadLen.toNat = frame.payloadLen := UInt64.ofNat_toNat
  subst hheader
  cases hmasked : frame.masked with
  | true =>
      have hkeys : keyBytes frame = List.ofFn frame.maskKey := if_pos hmasked
      have hbody : wsMaskPayload (maskedPayload frame) frame.maskKey = payload frame := by
        rw [maskedPayload, if_pos hmasked, wsMaskPayload_twice]
      have hdrop : (List.ofFn frame.maskKey ++ (maskedPayload frame ++ extra)).drop 4 =
          maskedPayload frame ++ extra := List.drop_left' List.length_ofFn
      have hkey : ¬ (List.ofFn frame.maskKey ++ (maskedPayload frame ++ extra)).length < 4 := by
        rw [List.length_append, List.length_ofFn]
        omega
      rw [hkeys, decodePayload, if_neg (Nat.not_lt_of_le hframe.length_le)]
      simp only [hkey, getD_ofFn, hdrop, henough, htake, hbody, hlen, Bool.true_and, if_true,
        decide_false, Bool.false_eq_true, if_false]
      split
      · next hzero =>
          have hnone : frame.payloadLen = 0 := UInt64.toNat_inj.mp hzero
          exact ⟨_, rfl, rfl, rfl, hmasked.symm, fun _ => rfl, hnone.symm,
            payload_empty hframe hzero rfl⟩
      · exact ⟨_, rfl, rfl, rfl, hmasked.symm, fun _ => rfl, rfl, payload_eq hframe rfl rfl rfl⟩
  | false =>
      have hkeys : keyBytes frame = [] := by
        rw [keyBytes, hmasked]
        rfl
      have hbody : maskedPayload frame = payload frame := by
        rw [maskedPayload, hmasked]
        rfl
      rw [hbody] at henough htake
      rw [hkeys, hbody, decodePayload, if_neg (Nat.not_lt_of_le hframe.length_le)]
      simp only [List.nil_append, henough, htake, hlen, Bool.false_and, Bool.false_eq_true,
        if_false]
      split
      · next hzero =>
          have hnone : frame.payloadLen = 0 := UInt64.toNat_inj.mp hzero
          exact ⟨_, rfl, rfl, rfl, hmasked.symm, fun htrue => absurd (hmasked.symm.trans htrue)
            (by decide), hnone.symm,
            payload_empty hframe hzero rfl⟩
      · exact ⟨_, rfl, rfl, rfl, hmasked.symm, fun htrue => absurd (hmasked.symm.trans htrue)
          (by decide), rfl,
          payload_eq hframe rfl rfl rfl⟩

theorem decodePayload_short {frame : WsFrame} {plen : Nat} {input : List UInt8}
    (hshort : input.length < (if frame.masked then 4 else 0) + plen) :
    (decodePayload frame plen input).1 = -1 := by
  rw [decodePayload]
  split
  · rfl
  · by_cases hmasked : frame.masked = true
    · rw [if_pos hmasked] at hshort
      simp only [hmasked, Bool.true_and, if_true]
      by_cases hkey : input.length < 4
      · rw [if_pos (decide_eq_true hkey)]
      · have hrest : (input.drop 4).length < plen := by
          rw [List.length_drop]
          omega
        rw [if_neg (by simpa using hkey), if_pos hrest]
    · rw [if_neg hmasked, Nat.zero_add] at hshort
      simp only [hmasked, Bool.false_and, Bool.false_eq_true, if_false]
      rw [if_pos hshort]

/-! ## The round trip -/

theorem decode_wire {frame : WsFrame} (hframe : Sendable frame) (extra : List UInt8)
    (junk : WsFrame) :
    ∃ frame', wsDecodeFrame (wire frame ++ extra) junk = (0, frame') ∧ SameFrame frame frame' := by
  have hlow := (secondByte_bits _ (lowLength_lt frame.payloadLen.toNat) frame.masked).2
  have hread := decodeLength_eq hframe.length_le
    (keyBytes frame ++ (maskedPayload frame ++ extra))
  obtain ⟨frame', hdecoded, hsame⟩ := decodePayload_eq hframe (decodeHeader_eq hframe) extra
  refine ⟨frame', ?_, hsame⟩
  rw [wire_eq, List.cons_append, List.cons_append, List.append_assoc, List.append_assoc,
    wsDecodeFrame]
  simp only [hlow, hread, hdecoded]

theorem decode_take {frame : WsFrame} (hframe : Sendable frame) {k : Nat}
    (hk : k < (wire frame).length) (junk : WsFrame) :
    (wsDecodeFrame ((wire frame).take k) junk).1 = -1 := by
  have hlow := (secondByte_bits _ (lowLength_lt frame.payloadLen.toNat) frame.masked).2
  rw [wire_eq] at hk ⊢
  rw [List.length_cons, List.length_cons, List.length_append, List.length_append,
    length_maskedPayload hframe, length_keyBytes] at hk
  cases k with
  | zero => rfl
  | succ k =>
      cases k with
      | zero => rfl
      | succ k =>
          rw [List.take_succ_cons, List.take_succ_cons, wsDecodeFrame]
          simp only [hlow]
          rw [List.take_append]
          by_cases hlength : k < (highLength frame.payloadLen.toNat).length
          · rw [Nat.sub_eq_zero_of_le hlength.le, List.take_zero, List.append_nil,
              decodeLength_take hlength]
          · have hall : (highLength frame.payloadLen.toNat).take k =
                highLength frame.payloadLen.toNat :=
              List.take_of_length_le (Nat.le_of_not_lt hlength)
            rw [hall, decodeLength_eq hframe.length_le]
            apply decodePayload_short
            have hmasked : (decodeHeader (firstByte frame)
                (maskBit frame.masked ||| lowLength frame.payloadLen.toNat)).masked =
                  frame.masked := by
              rw [decodeHeader_eq hframe]
            rw [hmasked, List.length_take]
            omega

/-- The count and the bytes of `wsEncodeFrame` are those of one frame, which is read back whatever
follows it, and no part of which is taken for a frame. -/
structure RoundTrip (frame : WsFrame) (count : Int) (out : Nat → UInt8) : Prop where
  count_eq : count = ((frameHeader frame).length + frame.payloadLen.toNat : Nat)
  decodes : ∀ extra junk, ∃ frame',
    wsDecodeFrame (bytesAt out count.toNat ++ extra) junk = (0, frame') ∧ SameFrame frame frame'
  refuses : ∀ k < count.toNat, ∀ junk, (wsDecodeFrame (bytesAt out k) junk).1 = -1

theorem frame_round_trip (frame : WsFrame) (hframe : Sendable frame) (out : Nat → UInt8)
    (outSz : Nat) (hroom : (frameHeader frame).length + frame.payloadLen.toNat ≤ outSz) :
    RoundTrip frame (wsEncodeFrame frame out outSz).1 (wsEncodeFrame frame out outSz).2 := by
  have hlength : (wire frame).length = (frameHeader frame).length + frame.payloadLen.toNat := by
    rw [wire, List.length_append, length_maskedPayload hframe]
  obtain ⟨hcount, hbytes⟩ := wsEncodeFrame_eq hframe out (hlength.trans_le hroom)
  constructor
  · rw [hcount, hlength]
  · intro extra junk
    rw [hcount, Int.toNat_natCast, hbytes]
    exact decode_wire hframe extra junk
  · intro k hk junk
    rw [hcount, Int.toNat_natCast] at hk
    rw [← take_bytesAt _ hk.le, hbytes]
    exact decode_take hframe hk junk

/-- A masked text of three bytes. -/
def abcFrame : WsFrame := ⟨true, true, 1, 3, fun j => UInt8.ofNat (j.val + 1), some [97, 98, 99]⟩

theorem frame_round_trip_abc :
    Sendable abcFrame ∧ (frameHeader abcFrame).length + abcFrame.payloadLen.toNat ≤ 9 ∧
      RoundTrip abcFrame (wsEncodeFrame abcFrame (fun _ => 0) 9).1
        (wsEncodeFrame abcFrame (fun _ => 0) 9).2 := by
  have hframe : Sendable abcFrame := ⟨by decide, by decide, by decide⟩
  exact ⟨hframe, by decide, frame_round_trip abcFrame hframe _ 9 (by decide)⟩

end MiniBackend.WebServer.Proofs.FrameRoundTrip
