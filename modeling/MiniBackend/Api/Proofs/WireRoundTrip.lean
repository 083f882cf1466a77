import MiniBackend.Api.GrpcSim

/-!
# Messages on the wire

A message is decoded up to where its bytes end.  What comes back differs from what was sent in
two places: a signed number stays in the form it had on the wire, and a string that is cut off is
returned as far as it goes.
-/

namespace MiniBackend.Api.Proofs.WireRoundTrip

open MiniBackend.Lib.ByteNumbers MiniBackend.Api.Grpc

/-! ## Values -/

def width : GrpcProtoType → Option Nat
  | .bool => some 1
  | .float | .int32 | .uint32 | .enum | .fixed32 | .sfixed32 | .sint32 => some 4
  | .double | .int64 | .uint64 | .fixed64 | .sfixed64 | .sint64 => some 8
  | .string | .bytes | .message => none

def Matching (type : GrpcProtoType) (value : List UInt8) : Prop :=
  ∀ w ∈ width type, value.length = w

instance (type : GrpcProtoType) (value : List UInt8) : Decidable (Matching type value) :=
  inferInstanceAs (Decidable (∀ w ∈ width type, _))

def readAt (type : GrpcProtoType) (decoded : List UInt8) : List UInt8 :=
  match width type with
  | some w => decoded.take w
  | none => decoded

abbrev Field := GrpcFieldDef × List UInt8

def Field.bytes (field : Field) : List UInt8 :=
  grpcWireEncodeField field.1.fieldNumber field.1.type field.2

structure Field.WellFormed (field : Field) : Prop where
  number_pos : 0 < field.1.fieldNumber.toInt
  number_lt : field.1.fieldNumber.toInt < 2 ^ 28
  matching : Matching field.1.type field.2
  short : field.2.length < grpcMaxFrameSize

/-- The fields that lie in the first `n` bytes. -/
def contained : List Field → Nat → List Field
  | [], _ => []
  | field :: fields, n =>
      if field.bytes.length ≤ n then field :: contained fields (n - field.bytes.length) else []

def Field.header (field : Field) : List UInt8 :=
  grpcVarintEncode (wireKey field.1.fieldNumber (grpcWireTypeForProto field.1.type)) ++
    if grpcWireTypeForProto field.1.type = 2 then grpcVarintEncode field.2.length else []

/-- The first `n` bytes end in the content of a string, behind its length. -/
def CutsString : List Field → Nat → Prop
  | [], _ => False
  | field :: fields, n =>
      if field.bytes.length ≤ n then CutsString fields (n - field.bytes.length)
      else grpcWireTypeForProto field.1.type = 2 ∧ field.header.length ≤ n

instance decidableCutsString : (fields : List Field) → (n : Nat) → Decidable (CutsString fields n)
  | [], _ => inferInstanceAs (Decidable False)
  | field :: fields, n =>
      haveI := decidableCutsString fields (n - field.bytes.length)
      inferInstanceAs (Decidable (if field.bytes.length ≤ n then
        CutsString fields (n - field.bytes.length)
      else grpcWireTypeForProto field.1.type = 2 ∧ field.header.length ≤ n))

/-- The types whose numbers have a form of their own on the wire. -/
def Signed (type : GrpcProtoType) : Prop := type = .sint32 ∨ type = .sint64

instance (type : GrpcProtoType) : Decidable (Signed type) := inferInstanceAs (Decidable (_ ∨ _))

/-- The values that were decoded are those of the fields, in order. -/
def Restores (fields : List Field) (decoded : List (List UInt8)) : Prop :=
  List.Forall₂ (fun field value => readAt field.1.type value = field.2) fields decoded

instance (fields : List Field) (decoded : List (List UInt8)) :
    Decidable (Restores fields decoded) :=
  inferInstanceAs (Decidable (List.Forall₂ _ fields decoded))

/-! ## Keys -/

theorem grpcVarintDecode_append {v : Nat} (hv : v < 2 ^ 64) (rest : List UInt8) :
    grpcVarintDecode (grpcVarintEncode v ++ rest) = some (v, (grpcVarintEncode v).length) := by
  have hzero : 0 < 2 ^ 0 := by decide
  have hv' : v * 2 ^ 0 < 2 ^ 64 := by rwa [pow_zero, Nat.mul_one]
  rw [grpcVarintDecode, grpcVarintEncode, readVarint_varintBytes hzero hv']
  simp

theorem grpcVarintDecode_take {v n : Nat} (hn : n < (grpcVarintEncode v).length) :
    grpcVarintDecode ((grpcVarintEncode v).take n) = none := readVarint_take hn 64 0 0 0

/-- The codes of numbers are exact, whatever comes behind them. -/
theorem codecs_exact :
    (∀ (v : UInt64) (rest : List UInt8),
      let encoded := grpcVarintEncode v.toNat
      grpcVarintDecode (encoded ++ rest) = some (v.toNat, encoded.length) ∧
      1 ≤ encoded.length ∧ encoded.length ≤ 10 ∧
      ∀ n < encoded.length, grpcVarintDecode (encoded.take n) = none) ∧
    (Function.LeftInverse grpcZigzag32Decode grpcZigzag32Encode ∧
      Function.RightInverse grpcZigzag32Decode grpcZigzag32Encode) ∧
    (Function.LeftInverse grpcZigzag64Decode grpcZigzag64Encode ∧
      Function.RightInverse grpcZigzag64Decode grpcZigzag64Encode) ∧
    (∀ value : BitVec 32, value.toInt.natAbs < 2 ^ 6 →
      (grpcVarintEncode (grpcZigzag32Encode value).toNat).length = 1) ∧
    ∀ value : BitVec 64, value.toInt.natAbs < 2 ^ 6 →
      (grpcVarintEncode (grpcZigzag64Encode value).toNat).length = 1 := by
  refine ⟨fun v rest => ?_, ⟨unzigzag_zigzag, zigzag_unzigzag⟩, ⟨unzigzag_zigzag, zigzag_unzigzag⟩,
    fun value => length_varintBytes_zigzag (by decide),
    fun value => length_varintBytes_zigzag (by decide)⟩
  have hlt : v.toNat < 2 ^ (7 * 9 + 7) := v.toNat_lt.trans (by decide)
  exact ⟨grpcVarintDecode_append v.toNat_lt rest, length_varintBytes_pos _,
    length_varintBytes_le hlt, fun n hn => grpcVarintDecode_take hn⟩

theorem wireType_lt (type : GrpcProtoType) : grpcWireTypeForProto type < 8 := by
  cases type <;> decide

theorem wireKey_eq {fieldNumber : Int32} (hpos : 0 < fieldNumber.toInt)
    (hlt : fieldNumber.toInt < 2 ^ 28) {wireType : Nat} (hwire : wireType < 8) :
    wireKey fieldNumber wireType = 8 * fieldNumber.toInt.toNat + wireType := by
  have hsmall : wireType < 2 ^ 3 := hwire
  rw [wireKey, ← Nat.shiftLeft_add_eq_or_of_lt hsmall, Nat.shiftLeft_eq]
  omega

theorem grpcWireDecodeField_key {field : Field} (h : field.WellFormed) (rest : List UInt8) :
    grpcWireDecodeField
        (grpcVarintEncode (wireKey field.1.fieldNumber (grpcWireTypeForProto field.1.type))
          ++ rest) =
      (decodeValue (grpcWireTypeForProto field.1.type) rest).map fun (n, type, value) =>
        ⟨(grpcVarintEncode (wireKey field.1.fieldNumber
          (grpcWireTypeForProto field.1.type))).length + n, field.1.fieldNumber, type, value⟩ := by
  have hwire := wireType_lt field.1.type
  have hkey := wireKey_eq h.number_pos h.number_lt hwire
  generalize hk : wireKey field.1.fieldNumber (grpcWireTypeForProto field.1.type) = key at hkey ⊢
  have hlt := h.number_lt
  have hpos := h.number_pos
  have htype : key &&& 7 = grpcWireTypeForProto field.1.type := by
    have hand : key &&& 7 = key % 2 ^ 3 := Nat.and_two_pow_sub_one_eq_mod key 3
    rw [hand, hkey]
    omega
  have hnumber : Int32.ofNat (key >>> 3) = field.1.fieldNumber := by
    have hshift : key >>> 3 = field.1.fieldNumber.toInt.toNat := by
      rw [Nat.shiftRight_eq_div_pow, hkey]
      omega
    rw [hshift, ← Int32.ofInt_eq_ofNat, Int.toNat_of_nonneg hpos.le, Int32.ofInt_toInt]
  rw [grpcWireDecodeField, grpcVarintDecode_append (by omega), Option.bind_some]
  dsimp only
  rw [htype, hnumber, List.drop_left]

/-! ## One field -/

theorem wireType_cases (type : GrpcProtoType) :
    (grpcWireTypeForProto type = 0 ∧ ∃ w ∈ [1, 4, 8], width type = some w) ∨
    (grpcWireTypeForProto type = 1 ∧ width type = some 8) ∨
    (grpcWireTypeForProto type = 2 ∧ width type = none) ∨
    (grpcWireTypeForProto type = 5 ∧ width type = some 4) := by
  cases type <;> decide

theorem varintOf_lt (type : GrpcProtoType) (value : List UInt8) : varintOf type value < 2 ^ 64 := by
  have hlt : ∀ k ≤ 8, leNat (value.take k) < 2 ^ 64 := by
    intro k hk
    calc leNat (value.take k) < 256 ^ (value.take k).length := leNat_lt _
      _ ≤ 256 ^ 8 := Nat.pow_le_pow_right (by decide) (by rw [List.length_take]; omega)
      _ = 2 ^ 64 := by decide
  rw [varintOf]
  split
  · exact (BitVec.isLt _).trans (by decide)
  · split
    · exact BitVec.isLt _
    · split
      · exact hlt 8 (by decide)
      · split
        · exact hlt 4 (by decide)
        · exact hlt 1 (by decide)

def decodedValue (field : Field) : List UInt8 :=
  if grpcWireTypeForProto field.1.type = 0 then leBytes 8 (varintOf field.1.type field.2)
  else field.2

theorem encodeValue_zero {type : GrpcProtoType} (hwire : grpcWireTypeForProto type = 0)
    (value : List UInt8) : encodeValue type value = grpcVarintEncode (varintOf type value) := by
  rw [encodeValue, hwire]
  rfl

theorem encodeValue_fixed {type : GrpcProtoType} {value : List UInt8} (h : Matching type value)
    (hwire : grpcWireTypeForProto type = 1 ∧ width type = some 8 ∨
      grpcWireTypeForProto type = 5 ∧ width type = some 4) : encodeValue type value = value := by
  rcases hwire with ⟨hwire, hwidth⟩ | ⟨hwire, hwidth⟩
  · rw [encodeValue, hwire]
    exact List.take_of_length_le (h 8 hwidth).le
  · rw [encodeValue, hwire]
    exact List.take_of_length_le (h 4 hwidth).le

theorem encodeValue_two {type : GrpcProtoType} (hwire : grpcWireTypeForProto type = 2)
    (value : List UInt8) : encodeValue type value = grpcVarintEncode value.length ++ value := by
  rw [encodeValue, hwire]
  rfl

theorem decodeValue_append {field : Field} (h : field.WellFormed) (rest : List UInt8) :
    ∃ type, decodeValue (grpcWireTypeForProto field.1.type)
        (encodeValue field.1.type field.2 ++ rest) =
      some ((encodeValue field.1.type field.2).length, type, decodedValue field) := by
  rw [decodedValue]
  rcases wireType_cases field.1.type with
    ⟨hwire, -⟩ | ⟨hwire, hwidth⟩ | ⟨hwire, -⟩ | ⟨hwire, hwidth⟩
  · rw [encodeValue_zero hwire, hwire, decodeValue, grpcVarintDecode_append (varintOf_lt _ _)]
    exact ⟨.uint64, rfl⟩
  · have hlen : field.2.length = 8 := h.matching 8 hwidth
    rw [encodeValue_fixed h.matching (.inl ⟨hwire, hwidth⟩), hwire, decodeValue,
      List.length_append, hlen, if_neg (by omega), ← hlen, List.take_left]
    exact ⟨.fixed64, rfl⟩
  · have hlt : field.2.length < 2 ^ 64 := h.short.trans (by decide)
    have hmin : min field.2.length
        ((grpcVarintEncode field.2.length ++ (field.2 ++ rest)).length -
          (grpcVarintEncode field.2.length).length) = field.2.length := by
      simp only [List.length_append]
      omega
    rw [encodeValue_two hwire, hwire, decodeValue, List.append_assoc, grpcVarintDecode_append hlt,
      Option.map_some]
    dsimp only
    rw [hmin, List.drop_left, List.take_left, List.length_append]
    exact ⟨.bytes, rfl⟩
  · have hlen : field.2.length = 4 := h.matching 4 hwidth
    rw [encodeValue_fixed h.matching (.inr ⟨hwire, hwidth⟩), hwire, decodeValue,
      List.length_append, hlen, if_neg (by omega), ← hlen, List.take_left]
    exact ⟨.fixed32, rfl⟩

theorem decodeValue_take {field : Field} (h : field.WellFormed) {n : Nat}
    (hn : n < (encodeValue field.1.type field.2).length) :
    decodeValue (grpcWireTypeForProto field.1.type) ((encodeValue field.1.type field.2).take n) =
      if grpcWireTypeForProto field.1.type = 2 ∧ (grpcVarintEncode field.2.length).length ≤ n then
        some (n, .bytes, field.2.take (n - (grpcVarintEncode field.2.length).length))
      else none := by
  have hfixed : ∀ {k type}, encodeValue field.1.type field.2 = field.2 → field.2.length = k →
      (if ((encodeValue field.1.type field.2).take n).length < k then none
        else some (k, type, ((encodeValue field.1.type field.2).take n).take k)) =
        (none : Option (Nat × GrpcProtoType × List UInt8)) := by
    intro k type hvalue hlen
    rw [hvalue, hlen] at hn
    rw [if_pos]
    rw [List.length_take]
    omega
  rcases wireType_cases field.1.type with
    ⟨hwire, -⟩ | ⟨hwire, hwidth⟩ | ⟨hwire, -⟩ | ⟨hwire, hwidth⟩
  · rw [encodeValue_zero hwire] at hn ⊢
    rw [hwire, decodeValue, grpcVarintDecode_take hn]
    rfl
  · have hvalue := encodeValue_fixed h.matching (.inl ⟨hwire, hwidth⟩)
    rw [hwire, decodeValue, hfixed hvalue (h.matching 8 hwidth)]
    rfl
  · have hlt : field.2.length < 2 ^ 64 := h.short.trans (by decide)
    rw [encodeValue_two hwire] at hn ⊢
    rw [hwire]
    by_cases hlength : (grpcVarintEncode field.2.length).length ≤ n
    · rw [List.length_append] at hn
      rw [if_pos ⟨rfl, hlength⟩, List.take_append, List.take_of_length_le hlength, decodeValue,
        grpcVarintDecode_append hlt, Option.map_some]
      dsimp only
      rw [List.drop_left, List.length_append, List.length_take, Nat.add_sub_cancel_left,
        List.take_take]
      congr 2
      · omega
      · congr 2
        omega
    · rw [if_neg (fun hand => hlength hand.2), List.take_append_of_le_length (by omega),
        decodeValue, grpcVarintDecode_take (Nat.lt_of_not_le hlength)]
      rfl
  · have hvalue := encodeValue_fixed h.matching (.inr ⟨hwire, hwidth⟩)
    rw [hwire, decodeValue, hfixed hvalue (h.matching 4 hwidth)]
    rfl

theorem Field.WellFormed.bytes_eq {field : Field} (h : field.WellFormed) :
    field.bytes =
      grpcVarintEncode (wireKey field.1.fieldNumber (grpcWireTypeForProto field.1.type)) ++
      encodeValue field.1.type field.2 := by
  rw [Field.bytes, grpcWireEncodeField, if_neg (not_le_of_gt h.number_pos)]

theorem Field.WellFormed.bytes_length_pos {field : Field} (h : field.WellFormed) :
    0 < field.bytes.length := by
  rw [h.bytes_eq, List.length_append]
  exact Nat.add_pos_left (length_varintBytes_pos _) _

theorem decode_bytes_append {field : Field} (h : field.WellFormed) (rest : List UInt8) :
    ∃ type, grpcWireDecodeField (field.bytes ++ rest) =
      some ⟨field.bytes.length, field.1.fieldNumber, type, decodedValue field⟩ := by
  obtain ⟨type, hvalue⟩ := decodeValue_append h rest
  rw [h.bytes_eq, List.append_assoc, grpcWireDecodeField_key h, hvalue, List.length_append]
  exact ⟨type, rfl⟩

theorem decode_bytes_take {field : Field} (h : field.WellFormed) {n : Nat}
    (hn : n < field.bytes.length) :
    grpcWireDecodeField (field.bytes.take n) =
      if grpcWireTypeForProto field.1.type = 2 ∧ field.header.length ≤ n then
        some ⟨n, field.1.fieldNumber, .bytes, field.2.take (n - field.header.length)⟩
      else none := by
  rw [h.bytes_eq] at hn ⊢
  rw [Field.header]
  generalize hkey : grpcVarintEncode (wireKey field.1.fieldNumber
    (grpcWireTypeForProto field.1.type)) = key at hn ⊢
  rw [List.length_append] at hn
  by_cases hlt : n < key.length
  · rw [List.take_append_of_le_length hlt.le, grpcWireDecodeField, ← hkey,
      grpcVarintDecode_take (by rwa [hkey]), hkey, Option.bind_none, if_neg]
    rw [List.length_append]
    omega
  · have hle := Nat.le_of_not_lt hlt
    have hread := decodeValue_take h (n := n - key.length) (by omega)
    rw [List.take_append, List.take_of_length_le hle, ← hkey, grpcWireDecodeField_key h, hkey,
      hread, List.length_append]
    by_cases hwire : grpcWireTypeForProto field.1.type = 2
    · rw [if_pos hwire]
      by_cases hheader : key.length + (grpcVarintEncode field.2.length).length ≤ n
      · rw [if_pos ⟨hwire, by omega⟩, if_pos ⟨hwire, hheader⟩, Option.map_some, Nat.sub_sub]
        dsimp only
        rw [Nat.add_sub_cancel' hle]
      · rw [if_neg (by omega), if_neg (by omega)]
        rfl
    · rw [if_neg (fun hand => hwire hand.1), if_neg (fun hand => hwire hand.1)]
      rfl

/-! ## Messages -/

def bytesOf (fields : List Field) : List UInt8 := fields.flatMap Field.bytes

theorem encodeFields_eq {defs : List GrpcFieldDef} {values : List (List UInt8)}
    {before out : List UInt8} (henc : encodeFields defs values before = some out)
    (hlen : out.length < grpcMaxFrameSize) : out = before ++ bytesOf (defs.zip values) := by
  induction defs generalizing values before with
  | nil =>
      rw [encodeFields] at henc
      · rw [List.zip_nil_left, bytesOf, List.flatMap_nil, List.append_nil]
        exact (Option.some.inj henc).symm
      · simp
  | cons field defs ih =>
      cases values with
      | nil =>
          rw [encodeFields] at henc
          · rw [List.zip_nil_right, bytesOf, List.flatMap_nil, List.append_nil]
            exact (Option.some.inj henc).symm
          · simp
      | cons value values =>
          rw [encodeFields] at henc
          split at henc
          · exact absurd henc (by simp)
          · dsimp only at henc
            split at henc
            · next hfull =>
                obtain rfl := Option.some.inj henc
                omega
            · rw [ih henc, List.append_assoc]
              rfl

def cutValue : List Field → Nat → List (List UInt8)
  | [], _ => []
  | field :: fields, n =>
      if field.bytes.length ≤ n then cutValue fields (n - field.bytes.length)
      else if grpcWireTypeForProto field.1.type = 2 ∧ field.header.length ≤ n then
        [field.2.take (n - field.header.length)]
      else []

theorem cutValue_eq_nil_iff {fields : List Field} {n : Nat} :
    cutValue fields n = [] ↔ ¬CutsString fields n := by
  induction fields generalizing n with
  | nil => simp [cutValue, CutsString]
  | cons field fields ih =>
      rw [cutValue, CutsString]
      split
      · exact ih
      · split
        · next hcut => simp [hcut]
        · next hcut => simp [hcut]

theorem decodeFields_take {fields : List Field} (hfields : ∀ field ∈ fields, field.WellFormed)
    {count : Nat} (hcount : fields.length ≤ count) (n : Nat) :
    decodeFields count ((bytesOf fields).take n) =
      (contained fields n).map decodedValue ++ cutValue fields n := by
  induction fields generalizing count n with
  | nil =>
      rw [bytesOf, List.flatMap_nil, List.take_nil, contained, cutValue]
      cases count with
      | zero => rfl
      | succ count => rw [decodeFields, if_pos rfl]; rfl
  | cons field fields ih =>
      obtain ⟨hfield, hfields⟩ := List.forall_mem_cons.mp hfields
      have hpos := hfield.bytes_length_pos
      rw [List.length_cons] at hcount
      obtain ⟨count, rfl⟩ : ∃ k, count = k + 1 := ⟨count - 1, by omega⟩
      rw [bytesOf, List.flatMap_cons, ← bytesOf, contained, cutValue]
      by_cases hn : field.bytes.length ≤ n
      · have htake : (field.bytes ++ bytesOf fields).take n =
            field.bytes ++ (bytesOf fields).take (n - field.bytes.length) := by
          rw [List.take_append, List.take_of_length_le hn]
        have hne : field.bytes ++ (bytesOf fields).take (n - field.bytes.length) ≠ [] := by
          rw [Ne, List.append_eq_nil_iff, ← List.length_eq_zero_iff]
          omega
        obtain ⟨type, hdecode⟩ :=
          decode_bytes_append hfield ((bytesOf fields).take (n - field.bytes.length))
        rw [htake, decodeFields, if_neg hne, hdecode]
        dsimp only
        rw [List.drop_left, ih hfields (by omega), if_pos hn, if_pos hn]
        rfl
      · have hlt := Nat.lt_of_not_le hn
        rw [if_neg hn, if_neg hn, List.take_append_of_le_length hlt.le, decodeFields]
        split
        · next hempty =>
            have hzero : n = 0 := by
              rw [List.take_eq_nil_iff, ← List.length_eq_zero_iff] at hempty
              omega
            have hheader : 0 < field.header.length := by
              rw [Field.header, List.length_append]
              exact Nat.add_pos_left (length_varintBytes_pos _) _
            rw [if_neg (by omega)]
            rfl
        · rw [decode_bytes_take hfield hlt]
          split
          · next hnone =>
              split at hnone
              · exact absurd hnone (by simp)
              · next hcut => rw [if_neg hcut]; rfl
          · next found hsome =>
              split at hsome
              · next hcut =>
                  obtain rfl := Option.some.inj hsome
                  have hrest : decodeFields count ((field.bytes.take n).drop n) = [] := by
                    rw [List.drop_take, Nat.sub_self, List.take_zero]
                    cases count with
                    | zero => rfl
                    | succ count => rw [decodeFields, if_pos rfl]
                  dsimp only
                  rw [if_pos hcut, hrest]
                  rfl
              · exact absurd hsome (by simp)

/-! ## Reading the values -/

theorem leBytes_eq_iff {w z : Nat} {value : List UInt8} (hlen : value.length = w)
    (hz : z < 256 ^ w) : leBytes w z = value ↔ z = leNat value := by
  constructor
  · rintro rfl
    rw [leNat_leBytes hz]
  · rintro rfl
    rw [← hlen, leBytes_leNat]

theorem varintOf_eq {type : GrpcProtoType} {value : List UInt8} {w : Nat} (hw : w ∈ [1, 4, 8])
    (hlen : value.length = w) :
    varintOf type value =
      if type = .sint32 then (grpcZigzag32Encode (BitVec.ofNat 32 (leNat value))).toNat
      else if type = .sint64 then (grpcZigzag64Encode (BitVec.ofNat 64 (leNat value))).toNat
      else leNat value := by
  have htake : value.take w = value := List.take_of_length_le hlen.le
  have hbytes : (if 8 ≤ value.length then leNat (value.take 8)
      else if 4 ≤ value.length then leNat (value.take 4) else leNat (value.take 1)) =
      leNat value := by
    simp only [List.mem_cons, List.not_mem_nil, or_false] at hw
    rw [hlen]
    rcases hw with rfl | rfl | rfl
    · rw [if_neg (by decide), if_neg (by decide), htake]
    · rw [if_neg (by decide), if_pos (by decide), htake]
    · rw [if_pos (by decide), htake]
  rw [varintOf, hbytes]

/-- The bytes of a value, read at its type, are its own unless it is a signed number other than
zero. -/
theorem readAt_decodedValue {field : Field} (h : field.WellFormed) :
    readAt field.1.type (decodedValue field) = field.2 ↔
      (Signed field.1.type → leNat field.2 = 0) := by
  have hcopied : ¬grpcWireTypeForProto field.1.type = 0 →
      readAt field.1.type field.2 = field.2 → (readAt field.1.type (decodedValue field) = field.2 ↔
        (Signed field.1.type → leNat field.2 = 0)) := by
    intro hwire hread
    have hunsigned : ¬Signed field.1.type := by
      rintro (htype | htype)
      · exact hwire (by rw [htype]; rfl)
      · exact hwire (by rw [htype]; rfl)
    rw [decodedValue, if_neg hwire, hread]
    exact ⟨fun _ hsigned => absurd hsigned hunsigned, fun _ => rfl⟩
  have hfixed : ∀ w, width field.1.type = some w → readAt field.1.type field.2 = field.2 := by
    intro w hwidth
    rw [readAt, hwidth]
    exact List.take_of_length_le (h.matching w hwidth).le
  rcases wireType_cases field.1.type with ⟨hwire, w, hw, hwidth⟩ | ⟨hwire, hwidth⟩ |
    ⟨hwire, hwidth⟩ | ⟨hwire, hwidth⟩
  · have hlen := h.matching w hwidth
    have hvalue := leNat_lt field.2
    have hle : w ≤ 8 := by
      simp only [List.mem_cons, List.not_mem_nil, or_false] at hw
      omega
    rw [decodedValue, if_pos hwire, readAt, hwidth]
    dsimp only
    rw [take_leBytes hle, varintOf_eq hw hlen]
    rw [hlen] at hvalue
    by_cases h32 : field.1.type = .sint32
    · rw [h32] at hwidth
      obtain rfl := Option.some.inj hwidth
      have hof : (BitVec.ofNat 32 (leNat field.2)).toNat = leNat field.2 := by
        have hlt : leNat field.2 < 2 ^ 32 := hvalue
        rw [BitVec.toNat_ofNat, Nat.mod_eq_of_lt hlt]
      have hself := zigzag_eq_self_iff (n := 31) (by decide) (BitVec.ofNat 32 (leNat field.2))
      rw [hof] at hself
      rw [if_pos h32, leBytes_eq_iff hlen (BitVec.isLt _)]
      exact hself.trans ⟨fun hzero _ => hzero, fun hzero => hzero (.inl h32)⟩
    · rw [if_neg h32]
      by_cases h64 : field.1.type = .sint64
      · rw [h64] at hwidth
        obtain rfl := Option.some.inj hwidth
        have hof : (BitVec.ofNat 64 (leNat field.2)).toNat = leNat field.2 := by
          have hlt : leNat field.2 < 2 ^ 64 := hvalue
          rw [BitVec.toNat_ofNat, Nat.mod_eq_of_lt hlt]
        have hself := zigzag_eq_self_iff (n := 63) (by decide) (BitVec.ofNat 64 (leNat field.2))
        rw [hof] at hself
        rw [if_pos h64, leBytes_eq_iff hlen (BitVec.isLt _)]
        exact hself.trans ⟨fun hzero _ => hzero, fun hzero => hzero (.inr h64)⟩
      · rw [if_neg h64, leBytes_eq_iff hlen hvalue]
        exact ⟨fun _ hsigned => absurd hsigned (not_or.mpr ⟨h32, h64⟩), fun _ => rfl⟩
  · exact hcopied (by omega) (hfixed 8 hwidth)
  · refine hcopied (by omega) ?_
    rw [readAt, hwidth]
  · exact hcopied (by omega) (hfixed 4 hwidth)

theorem contained_sublist (fields : List Field) (n : Nat) :
    (contained fields n).Sublist fields := by
  induction fields generalizing n with
  | nil => exact List.Sublist.slnil
  | cons field fields ih =>
      rw [contained]
      split
      · exact (ih _).cons_cons field
      · exact List.nil_sublist _

theorem restores_map_iff {fields : List Field} (hfields : ∀ field ∈ fields, field.WellFormed) :
    Restores fields (fields.map decodedValue) ↔
      ∀ field ∈ fields, Signed field.1.type → leNat field.2 = 0 := by
  rw [Restores, List.forall₂_map_right_iff, List.forall₂_same]
  exact forall₂_congr fun field hfield => readAt_decodedValue (hfields field hfield)

theorem restores_take_iff {fields : List Field} (hfields : ∀ field ∈ fields, field.WellFormed)
    {count : Nat} (hcount : fields.length ≤ count) (n : Nat) :
    Restores (contained fields n) (decodeFields count ((bytesOf fields).take n)) ↔
      (∀ field ∈ contained fields n, Signed field.1.type → leNat field.2 = 0) ∧
        ¬CutsString fields n := by
  have hsub : ∀ field ∈ contained fields n, field.WellFormed := fun field hfield =>
    hfields field ((contained_sublist fields n).subset hfield)
  rw [decodeFields_take hfields hcount, ← cutValue_eq_nil_iff]
  constructor
  · intro hrestores
    have hlen := hrestores.length_eq
    rw [List.length_append, List.length_map, Nat.left_eq_add, List.length_eq_zero_iff] at hlen
    rw [hlen, List.append_nil] at hrestores
    exact ⟨(restores_map_iff hsub).mp hrestores, hlen⟩
  · rintro ⟨hzero, hcut⟩
    rw [hcut, List.append_nil]
    exact (restores_map_iff hsub).mpr hzero

theorem contained_length (fields : List Field) :
    contained fields (bytesOf fields).length = fields ∧
      ¬CutsString fields (bytesOf fields).length := by
  induction fields with
  | nil => exact ⟨rfl, id⟩
  | cons field fields ih =>
      rw [bytesOf, List.flatMap_cons, ← bytesOf, List.length_append, contained, CutsString,
        if_pos (Nat.le_add_right _ _), if_pos (Nat.le_add_right _ _), Nat.add_sub_cancel_left, ih.1]
      exact ⟨rfl, ih.2⟩

/-! ## Main results -/

theorem mem_zip_short {defs : List GrpcFieldDef} {values : List (List UInt8)}
    (hpos : ∀ field ∈ defs, 0 < field.fieldNumber.toInt)
    (hmatch : ∀ field ∈ defs.zip values, Matching field.1.type field.2)
    (hlen : (bytesOf (defs.zip values)).length < grpcMaxFrameSize) {field : Field}
    (hfield : field ∈ defs.zip values) : field.2.length < grpcMaxFrameSize := by
  have hnumber := hpos field.1 (List.of_mem_zip hfield).1
  have hle : (encodeValue field.1.type field.2).length ≤ field.bytes.length := by
    rw [Field.bytes, grpcWireEncodeField, if_neg (not_le_of_gt hnumber), List.length_append]
    exact Nat.le_add_left _ _
  have hbytes : field.bytes.length ≤ (bytesOf (defs.zip values)).length := by
    rw [bytesOf, List.flatMap_def]
    exact (List.sublist_flatten_of_mem (List.mem_map_of_mem hfield)).length_le
  have hsmall : ∀ w ≤ 8, field.2.length = w → field.2.length < grpcMaxFrameSize := by
    intro w hw hvalue
    rw [hvalue]
    exact lt_of_le_of_lt hw (by decide)
  rcases wireType_cases field.1.type with
    ⟨-, w, hw, hwidth⟩ | ⟨-, hwidth⟩ | ⟨hwire, -⟩ | ⟨-, hwidth⟩
  · refine hsmall w ?_ (hmatch field hfield w hwidth)
    simp only [List.mem_cons, List.not_mem_nil, or_false] at hw
    omega
  · exact hsmall 8 le_rfl (hmatch field hfield 8 hwidth)
  · rw [encodeValue_two hwire, List.length_append] at hle
    omega
  · exact hsmall 4 (by decide) (hmatch field hfield 4 hwidth)

/-- The round trip and its prefixes: the whole message comes back exactly if every signed number
is zero, and a prefix gives the fields in it exactly if, besides, it does not end in the content
of a string. -/
theorem decode_encode_iff {msg : GrpcMessageDef} {values : List (List UInt8)} {out : List UInt8}
    (hnumbers : ∀ field ∈ msg.fields, 0 < field.fieldNumber.toInt ∧
      field.fieldNumber.toInt < 2 ^ 28)
    (hmatch : ∀ field ∈ msg.fields.zip values, Matching field.1.type field.2)
    (henc : grpcSimEncodeMessage msg values = some out) (hlen : out.length < grpcMaxFrameSize) :
    (Restores (msg.fields.zip values) (grpcSimDecodeMessage msg out) ↔
      ∀ field ∈ msg.fields.zip values, Signed field.1.type → leNat field.2 = 0) ∧
    ∀ n < out.length,
      (Restores (contained (msg.fields.zip values) n) (grpcSimDecodeMessage msg (out.take n)) ↔
        (∀ field ∈ contained (msg.fields.zip values) n, Signed field.1.type → leNat field.2 = 0) ∧
          ¬CutsString (msg.fields.zip values) n) := by
  obtain rfl := encodeFields_eq henc hlen
  rw [List.nil_append] at hlen ⊢
  have hfields : ∀ field ∈ msg.fields.zip values, Field.WellFormed field := by
    intro field hfield
    obtain ⟨hpos, hlt⟩ := hnumbers field.1 (List.of_mem_zip hfield).1
    exact ⟨hpos, hlt, hmatch field hfield,
      mem_zip_short (fun field hfield => (hnumbers field hfield).1) hmatch hlen hfield⟩
  have hcount : (msg.fields.zip values).length ≤ msg.fields.length := by
    rw [List.length_zip]
    exact Nat.min_le_left _ _
  refine ⟨?_, fun n _ => restores_take_iff hfields hcount n⟩
  have hwhole := restores_take_iff hfields hcount (bytesOf (msg.fields.zip values)).length
  obtain ⟨hcontained, hcut⟩ := contained_length (msg.fields.zip values)
  rw [List.take_length, hcontained] at hwhole
  exact hwhole.trans (and_iff_left hcut)

/-- A message with a number and a name. -/
def userDef : GrpcMessageDef := ⟨[⟨.int32, 1⟩, ⟨.string, 2⟩]⟩

/-- The number 300 and the name ann come back, and the first three bytes give the number. -/
theorem decode_encode_iff_user :
    ∃ out, grpcSimEncodeMessage userDef [[44, 1, 0, 0], [97, 110, 110]] = some out ∧
      Restores (userDef.fields.zip [[44, 1, 0, 0], [97, 110, 110]])
        (grpcSimDecodeMessage userDef out) ∧
      Restores (contained (userDef.fields.zip [[44, 1, 0, 0], [97, 110, 110]]) 3)
        (grpcSimDecodeMessage userDef (out.take 3)) := by
  have henc : grpcSimEncodeMessage userDef [[44, 1, 0, 0], [97, 110, 110]] =
      some [8, 172, 2, 18, 3, 97, 110, 110] := by decide +kernel
  have hmatch : ∀ field ∈ userDef.fields.zip [[44, 1, 0, 0], [97, 110, 110]],
      Matching field.1.type field.2 := by decide
  obtain ⟨hwhole, hcut⟩ := decode_encode_iff (by decide) hmatch henc (by decide)
  refine ⟨_, henc, hwhole.mpr (by decide), (hcut 3 (by decide)).mpr ⟨by decide +kernel, ?_⟩⟩
  decide +kernel

/-- `-1` comes back as 1, and a name that is cut off comes back in part. -/
theorem signed_and_cut_values :
    (¬ ∀ (msg : GrpcMessageDef) (values : List (List UInt8)) (out : List UInt8),
      (∀ field ∈ msg.fields, 0 < field.fieldNumber.toInt ∧ field.fieldNumber.toInt < 2 ^ 28) →
      (∀ field ∈ msg.fields.zip values, Matching field.1.type field.2) →
      grpcSimEncodeMessage msg values = some out → out.length < grpcMaxFrameSize →
      Restores (msg.fields.zip values) (grpcSimDecodeMessage msg out)) ∧
    ¬ ∀ (msg : GrpcMessageDef) (values : List (List UInt8)) (out : List UInt8),
      (∀ field ∈ msg.fields, 0 < field.fieldNumber.toInt ∧ field.fieldNumber.toInt < 2 ^ 28) →
      (∀ field ∈ msg.fields.zip values, Matching field.1.type field.2) →
      grpcSimEncodeMessage msg values = some out → out.length < grpcMaxFrameSize →
      ∀ n < out.length, Restores (contained (msg.fields.zip values) n)
        (grpcSimDecodeMessage msg (out.take n)) := by
  constructor
  · intro hclaim
    have hrestores := hclaim ⟨[⟨.sint32, 1⟩]⟩ [[255, 255, 255, 255]] [8, 1] (by decide) (by decide)
      (by decide +kernel) (by decide)
    exact absurd hrestores (by decide)
  · intro hclaim
    have hrestores := hclaim userDef [[44, 1, 0, 0], [97, 110, 110]]
      [8, 172, 2, 18, 3, 97, 110, 110] (by decide) (by decide) (by decide +kernel) (by decide) 7
      (by decide)
    exact absurd hrestores (by decide +kernel)

/-!
# What is copied out of a frame

The length in a header comes from the peer.  It is cut to the bytes that follow and to the array,
but as a signed number, so a length from 2^31 on is negative and passes both limits.
-/

section FrameBounds

open MiniBackend.Lib.ByteNumbers MiniBackend.Api.Grpc

/-- A copy of `count` bytes, out of `rest` bytes, whose length is noted as `recorded`. -/
structure CopiesWithin (count rest recorded : Int) : Prop where
  nonneg : 0 ≤ count
  le_rest : count ≤ rest
  le_array : count ≤ grpcMaxFrameSize
  recorded_eq : recorded = count

/-! ## Lengths -/

theorem numberAt_lt (data : List UInt8) (i n : Nat) : numberAt data i n < 256 ^ n :=
  calc numberAt data i n < 256 ^ ((data.drop i).take n).length := beNat_lt _
    _ ≤ 256 ^ n := Nat.pow_le_pow_right (by decide) (by rw [List.length_take]; omega)

theorem clampLen_eq (len : Nat) (rest : Int) :
    clampLen len rest = min (min (Int.bmod len (2 ^ 32)) rest) grpcMaxFrameSize := by
  unfold clampLen
  generalize Int.bmod len (2 ^ 32) = n
  dsimp only
  omega

theorem clampLen_of_lt {len : Nat} (h : len < 2 ^ 31) (rest : Int) :
    clampLen len rest = min (min (len : Int) rest) grpcMaxFrameSize := by
  rw [clampLen_eq, Int.bmod_eq_of_le] <;> omega

theorem clampLen_neg {len : Nat} (h : 2 ^ 31 ≤ len) (hlt : len < 2 ^ 32) (rest : Int) :
    clampLen len rest < 0 := by
  rw [clampLen_eq, Int.bmod_def]
  omega

theorem clampLen_within {len : Nat} (h : len < 2 ^ 31) {rest : Int} (hrest : 0 ≤ rest) :
    CopiesWithin (clampLen len rest) rest (clampLen len rest) := by
  rw [clampLen_of_lt h]
  constructor <;> omega

/-! ## The three copies -/

theorem grpcFrame_within_iff (stream : GrpcStream) (data : List UInt8) (len : Int32) :
    (∀ r ∈ grpcSimGrpcFrame stream data len,
      CopiesWithin r.2 (len.toInt - 5) r.1.messageLen) ↔
    (5 ≤ len.toInt → numberAt data 1 4 < 2 ^ 31) := by
  rw [grpcSimGrpcFrame]
  split
  · next hshort => exact ⟨fun _ hlen => absurd hlen (by omega), fun _ r hr => nomatch hr⟩
  · next hlen =>
      have hrest : 0 ≤ len.toInt - 5 := by omega
      simp only [Option.mem_some_iff, forall_eq']
      constructor
      · intro h _
        by_contra hbig
        have hneg := clampLen_neg (Nat.le_of_not_lt hbig) (numberAt_lt data 1 4) (len.toInt - 5)
        exact absurd h.nonneg (Int.not_le_of_gt hneg)
      · intro h
        exact clampLen_within (h (by omega)) hrest

theorem parseGrpcFrame_within_iff (data : List UInt8) (len : Int32) :
    (∀ r ∈ grpcSimParseGrpcFrame data len,
      CopiesWithin r.2 (len.toInt - 9) r.1.payloadLen) ↔
    (9 ≤ len.toInt → numberAt data 0 3 ≤ len.toInt - 9 ∧ numberAt data 0 3 ≤ grpcMaxFrameSize) := by
  have hlt : numberAt data 0 3 < 2 ^ 31 := (numberAt_lt data 0 3).trans (by decide)
  have hclamp := clampLen_of_lt hlt (len.toInt - 9)
  rw [grpcSimParseGrpcFrame]
  split
  · next hshort => exact ⟨fun _ hlen => absurd hlen (by omega), fun _ r hr => nomatch hr⟩
  · next hlen =>
      have hwithin := clampLen_within hlt (show 0 ≤ len.toInt - 9 by omega)
      simp only [Option.mem_some_iff, forall_eq']
      constructor
      · intro h _
        have heq := h.recorded_eq
        omega
      · intro h
        have hfits := h (by omega)
        exact ⟨hwithin.nonneg, hwithin.le_rest, hwithin.le_array, by omega⟩

theorem writeStream_recorded {streams after : List GrpcStream} {streamId : UInt32}
    {data : List UInt8} {len : Int32} {count : Int}
    (h : grpcSimWriteStream streams streamId data len = some (after, count)) :
    count = min len.toInt grpcMaxFrameSize ∧
    ∃ stream ∈ after.find? (fun stream => stream.streamId = streamId),
      stream.messageLen = count := by
  induction streams generalizing after with
  | nil => exact nomatch h
  | cons stream streams ih =>
      rw [grpcSimWriteStream] at h
      split at h
      · next hid =>
          obtain ⟨rfl, rfl⟩ := Prod.mk.inj (Option.some.inj h)
          refine ⟨by omega, _, List.find?_cons_of_pos ?_, rfl⟩
          exact decide_eq_true hid
      · next hid =>
          rw [Option.map_eq_some_iff] at h
          obtain ⟨⟨rest, n⟩, hrest, heq⟩ := h
          obtain ⟨rfl, rfl⟩ := Prod.mk.inj heq
          rw [List.find?_cons_of_neg (by simpa using hid)]
          exact ih hrest

theorem writeStream_isSome_iff (streams : List GrpcStream) (streamId : UInt32)
    (data : List UInt8) (len : Int32) :
    (∃ r, grpcSimWriteStream streams streamId data len = some r) ↔
      ∃ stream ∈ streams, stream.streamId = streamId := by
  induction streams with
  | nil => simp [grpcSimWriteStream]
  | cons stream streams ih =>
      rw [grpcSimWriteStream]
      split
      · next hid => exact ⟨fun _ => ⟨stream, List.mem_cons_self, hid⟩, fun _ => ⟨_, rfl⟩⟩
      · next hid =>
          rw [← Option.isSome_iff_exists, Option.isSome_map, Option.isSome_iff_exists, ih,
            List.exists_mem_cons_iff, or_iff_right hid]

theorem writeStream_within_iff (streams : List GrpcStream) (streamId : UInt32)
    (data : List UInt8) (len : Int32) :
    (∀ r ∈ grpcSimWriteStream streams streamId data len,
      ∃ stream ∈ r.1.find? (fun stream => stream.streamId = streamId),
        CopiesWithin r.2 len.toInt stream.messageLen) ↔
    ((∃ stream ∈ streams, stream.streamId = streamId) → 0 ≤ len.toInt) := by
  rw [← writeStream_isSome_iff streams streamId data len]
  constructor
  · rintro h ⟨r, hr⟩
    obtain ⟨stream, -, hwithin⟩ := h r hr
    have hcount := (writeStream_recorded hr).1
    have hnonneg := hwithin.nonneg
    omega
  · intro h r hr
    obtain ⟨hcount, stream, hfind, hlen⟩ := writeStream_recorded hr
    have hnonneg := h ⟨r, hr⟩
    exact ⟨stream, hfind, by omega, by omega, by omega, hlen⟩

/-! ## A frame that is sent -/

theorem numberAt_append {before bytes after : List UInt8} {i n : Nat} (hi : before.length = i)
    (hn : bytes.length = n) : numberAt (before ++ (bytes ++ after)) i n = beNat bytes := by
  rw [numberAt, ← hi, List.drop_left, ← hn, List.take_left]

theorem idBytes_eq {id : UInt32} (h : id.toNat < 2 ^ 31) :
    ((id >>> 24) &&& 0x7F).toUInt8 :: beBytes 3 id.toNat = beBytes 4 id.toNat := by
  have hshift : id.toNat >>> 24 < 2 ^ 7 := by
    rw [Nat.shiftRight_eq_div_pow]
    omega
  have hbyte : ((id >>> 24) &&& 0x7F).toUInt8 = UInt8.ofNat (id.toNat >>> (8 * 3)) := by
    apply UInt8.toNat_inj.mp
    calc ((id >>> 24) &&& 0x7F).toUInt8.toNat
        = (id.toNat >>> 24 &&& (2 ^ 7 - 1)) % 2 ^ 8 := by
          rw [UInt32.toNat_toUInt8, UInt32.toNat_and, UInt32.toNat_shiftRight]
          rfl
      _ = id.toNat >>> 24 % 2 ^ 8 := by
          rw [Nat.and_two_pow_sub_one_eq_mod, Nat.mod_eq_of_lt hshift]
      _ = (UInt8.ofNat (id.toNat >>> (8 * 3))).toNat := UInt8.toNat_ofNat'.symm
  rw [hbyte]
  rfl

theorem ofNat_and_mask {id : UInt32} (h : id.toNat < 2 ^ 31) :
    UInt32.ofNat id.toNat &&& 0x7FFFFFFF = id := by
  apply UInt32.toNat_inj.mp
  rw [UInt32.ofNat_toNat, UInt32.toNat_and]
  calc id.toNat &&& (2 ^ 31 - 1) = id.toNat % 2 ^ 31 := Nat.and_two_pow_sub_one_eq_mod _ _
    _ = id.toNat := Nat.mod_eq_of_lt h

theorem memcpy_take {payload : FrameArray} {n : Nat} {i : Fin grpcMaxFrameSize} (hi : i.val < n)
    (dst : FrameArray) : memcpy dst ((List.ofFn payload).take n) n i = payload i := by
  have hlt : (i : Int) < n := Int.ofNat_lt.mpr hi
  rw [memcpy, if_pos hlt, List.getD_eq_getElem?_getD, List.getElem?_take_of_lt hi,
    List.getElem?_ofFn, dif_pos i.isLt, Option.getD_some]

/-- What is read back is the frame, with the bit of the last frame set if it is that. -/
def RestoresFrame (frame : GrpcH2Frame) (isLast : Bool) : Prop :=
  ∃ parsed : GrpcH2Frame, grpcSimParseGrpcFrame (grpcSimBuildH2Frame frame isLast)
      (Int32.ofNat (grpcSimBuildH2Frame frame isLast).length) =
        some (parsed, (frame.payloadLen : Int)) ∧
    parsed.type = frame.type ∧
    parsed.flags = (frame.flags ||| if isLast then 0x01 else 0x00) ∧
    parsed.streamId = frame.streamId ∧
    parsed.payloadLen = frame.payloadLen ∧
    ∀ i : Fin grpcMaxFrameSize, i.val < frame.payloadLen → parsed.payload i = frame.payload i

theorem restores {frame : GrpcH2Frame} (hlen : frame.payloadLen ≤ grpcMaxFrameSize)
    (hid : frame.streamId.toNat < 2 ^ 31) (isLast : Bool) : RestoresFrame frame isLast := by
  have hsize : frame.payloadLen ≤ 65536 := hlen
  generalize hsent : (List.ofFn frame.payload).take frame.payloadLen = sent
  have hcount : sent.length = frame.payloadLen := by
    rw [← hsent, List.length_take, List.length_ofFn, Nat.min_eq_left hlen]
  have hbytes : grpcSimBuildH2Frame frame isLast = beBytes 3 frame.payloadLen ++
      ([frame.type, frame.flags ||| if isLast then 0x01 else 0x00] ++
        (beBytes 4 frame.streamId.toNat ++ sent)) := by
    rw [← idBytes_eq hid, grpcSimBuildH2Frame, hsent]
    simp
  have hlength : (grpcSimBuildH2Frame frame isLast).length = 9 + frame.payloadLen := by
    rw [hbytes]
    simp [hcount]
    omega
  have hint : (Int32.ofNat (grpcSimBuildH2Frame frame isLast).length).toInt =
      9 + frame.payloadLen := by
    rw [hlength, Int32.toInt_ofNat_of_lt (by omega)]
    rfl
  have hpayload : numberAt (grpcSimBuildH2Frame frame isLast) 0 3 = frame.payloadLen := by
    rw [hbytes, ← List.nil_append (beBytes 3 _ ++ _)]
    have hlt : frame.payloadLen < 256 ^ 3 := hsize.trans_lt (by decide)
    exact (numberAt_append rfl rfl).trans (beNat_beBytes hlt)
  have hclamp : clampLen frame.payloadLen (9 + frame.payloadLen - 9) = frame.payloadLen := by
    rw [clampLen_of_lt (by omega)]
    omega
  have hdrop : (grpcSimBuildH2Frame frame isLast).drop 9 = sent := by
    rw [hbytes]
    rfl
  have hstream : numberAt (grpcSimBuildH2Frame frame isLast) 5 4 = frame.streamId.toNat := by
    rw [hbytes, ← List.append_assoc]
    exact (numberAt_append rfl rfl).trans (beNat_beBytes (hid.trans (by decide)))
  rw [RestoresFrame, grpcSimParseGrpcFrame, hint, if_neg (by omega), hpayload]
  dsimp only
  rw [hclamp, hdrop, hstream, ofNat_and_mask hid, hbytes, ← hsent]
  refine ⟨_, rfl, rfl, rfl, rfl, rfl, ?_⟩
  intro i hi
  dsimp only
  exact memcpy_take hi _

/-- The copies are in bounds, and their lengths the recorded ones, when no length is negative and
an HTTP/2 frame is complete; a frame that fits is read back in any case. -/
theorem frames_within_iff (stream : GrpcStream) (streams : List GrpcStream) (streamId : UInt32)
    (data : List UInt8) (len : Int32) :
    ((∀ r ∈ grpcSimGrpcFrame stream data len,
        CopiesWithin r.2 (len.toInt - 5) r.1.messageLen) ↔
      (5 ≤ len.toInt → numberAt data 1 4 < 2 ^ 31)) ∧
    ((∀ r ∈ grpcSimParseGrpcFrame data len,
        CopiesWithin r.2 (len.toInt - 9) r.1.payloadLen) ↔
      (9 ≤ len.toInt →
        numberAt data 0 3 ≤ len.toInt - 9 ∧ numberAt data 0 3 ≤ grpcMaxFrameSize)) ∧
    ((∀ r ∈ grpcSimWriteStream streams streamId data len,
        ∃ written ∈ r.1.find? (fun stream => stream.streamId = streamId),
          CopiesWithin r.2 len.toInt written.messageLen) ↔
      ((∃ stream ∈ streams, stream.streamId = streamId) → 0 ≤ len.toInt)) ∧
    ∀ frame : GrpcH2Frame, frame.payloadLen ≤ grpcMaxFrameSize → frame.streamId.toNat < 2 ^ 31 →
      ∀ isLast, RestoresFrame frame isLast :=
  ⟨grpcFrame_within_iff stream data len, parseGrpcFrame_within_iff data len,
    writeStream_within_iff streams streamId data len, fun _ hlen hid => restores hlen hid⟩

/-- A length of 2^31 in a header of five bytes. -/
theorem negative_length_copied :
    ¬∀ r ∈ grpcSimGrpcFrame ⟨1, fun _ => 0, 0, false⟩ [0, 0x80, 0, 0, 0] 5,
      CopiesWithin r.2 ((5 : Int32).toInt - 5) r.1.messageLen := by
  rw [grpcFrame_within_iff]
  decide

end FrameBounds

end MiniBackend.Api.Proofs.WireRoundTrip
