import MiniBackend.Lib.ByteNumbers

/-!
# `grpc_sim.c`: the wire format

A field is a key, which has its number and wire type, and its value.  A message is the fields one
behind the other, and a buffer is the list of its bytes.
-/

namespace MiniBackend.Api.Grpc

open MiniBackend.Lib.ByteNumbers

def grpcMaxFrameSize : Nat := 65536

inductive GrpcProtoType
  | double
  | float
  | int64
  | uint64
  | int32
  | fixed64
  | fixed32
  | bool
  | string
  | bytes
  | uint32
  | enum
  | sfixed32
  | sfixed64
  | sint32
  | sint64
  | message
deriving DecidableEq

structure GrpcFieldDef where
  type : GrpcProtoType
  fieldNumber : Int32
deriving DecidableEq

structure GrpcMessageDef where
  fields : List GrpcFieldDef
deriving DecidableEq

def grpcVarintEncode (value : Nat) : List UInt8 := varintBytes value

/-- The value and the number of bytes that were read. -/
def grpcVarintDecode (buf : List UInt8) : Option (Nat × Nat) := readVarint 64 buf 0 0 0

def grpcZigzag32Encode (value : BitVec 32) : BitVec 32 := zigzag value

def grpcZigzag32Decode (value : BitVec 32) : BitVec 32 := unzigzag value

def grpcZigzag64Encode (value : BitVec 64) : BitVec 64 := zigzag value

def grpcZigzag64Decode (value : BitVec 64) : BitVec 64 := unzigzag value

def grpcWireTypeForProto : GrpcProtoType → Nat
  | .int32 | .int64 | .uint32 | .uint64 | .bool | .enum | .sint32 | .sint64 => 0
  | .fixed64 | .sfixed64 | .double => 1
  | .string | .bytes | .message => 2
  | .fixed32 | .sfixed32 | .float => 5

/-- The number of a field of wire type 0, read from the bytes of its value. -/
def varintOf (type : GrpcProtoType) (value : List UInt8) : Nat :=
  let v :=
    if 8 ≤ value.length then leNat (value.take 8)
    else if 4 ≤ value.length then leNat (value.take 4)
    else leNat (value.take 1)
  if type = .sint32 then (grpcZigzag32Encode (BitVec.ofNat 32 v)).toNat
  else if type = .sint64 then (grpcZigzag64Encode (BitVec.ofNat 64 v)).toNat
  else v

def wireKey (fieldNumber : Int32) (wireType : Nat) : Nat :=
  ((fieldNumber.toInt.toNat <<< 3) ||| wireType) % 2 ^ 32

def encodeValue (type : GrpcProtoType) (value : List UInt8) : List UInt8 :=
  match grpcWireTypeForProto type with
  | 0 => grpcVarintEncode (varintOf type value)
  | 1 => value.take 8
  | 2 => grpcVarintEncode value.length ++ value
  | 5 => value.take 4
  | _ => []

/-- The bytes that are written; none for a bad field number. -/
def grpcWireEncodeField (fieldNumber : Int32) (type : GrpcProtoType) (value : List UInt8) :
    List UInt8 :=
  if fieldNumber.toInt ≤ 0 then []
  else
    grpcVarintEncode (wireKey fieldNumber (grpcWireTypeForProto type)) ++ encodeValue type value

/-- The value behind the key: the number of bytes that were read, the type and the bytes that
are stored. -/
def decodeValue (wireType : Nat) (rest : List UInt8) : Option (Nat × GrpcProtoType × List UInt8) :=
  match wireType with
  | 0 => (grpcVarintDecode rest).map fun (v, vlen) => (vlen, .uint64, leBytes 8 v)
  | 1 => if rest.length < 8 then none else some (8, .fixed64, rest.take 8)
  | 2 => (grpcVarintDecode rest).map fun (slen, llen) =>
      -- a length behind the end is cut down to what is left
      let slen := min slen (rest.length - llen)
      (llen + slen, .bytes, (rest.drop llen).take slen)
  | 5 => if rest.length < 4 then none else some (4, .fixed32, rest.take 4)
  | _ => none

structure DecodedField where
  consumed : Nat
  fieldNumber : Int32
  type : GrpcProtoType
  value : List UInt8
deriving DecidableEq

def grpcWireDecodeField (buf : List UInt8) : Option DecodedField :=
  (grpcVarintDecode buf).bind fun (key, off) =>
    (decodeValue (key &&& 7) (buf.drop off)).map fun (n, type, value) =>
      ⟨off + n, Int32.ofNat (key >>> 3), type, value⟩

/-- The loop of `grpc_sim_encode_message`, with what has been written. -/
def encodeFields : List GrpcFieldDef → List (List UInt8) → List UInt8 → Option (List UInt8)
  | field :: fields, value :: values, out =>
      let written := grpcWireEncodeField field.fieldNumber field.type value
      if written = [] then none
      else
        let out := out ++ written
        if grpcMaxFrameSize ≤ out.length then some out else encodeFields fields values out
  | _, _, out => some out

def grpcSimEncodeMessage (msg : GrpcMessageDef) (fieldValues : List (List UInt8)) :
    Option (List UInt8) :=
  encodeFields msg.fields fieldValues []

/-- The loop of `grpc_sim_decode_message`, with the number of fields that may still come. -/
def decodeFields : Nat → List UInt8 → List (List UInt8)
  | 0, _ => []
  | n + 1, data =>
      if data = [] then []
      else
        match grpcWireDecodeField data with
        | none => []
        | some field => field.value :: decodeFields n (data.drop field.consumed)

def grpcSimDecodeMessage (msg : GrpcMessageDef) (data : List UInt8) : List (List UInt8) :=
  decodeFields msg.fields.length data

/-! ## Frames -/

/-- `payload` and `message_data`. -/
abbrev FrameArray : Type := Fin grpcMaxFrameSize → UInt8

structure GrpcH2Frame where
  type : UInt8
  flags : UInt8
  streamId : UInt32
  payloadLen : Nat
  payload : FrameArray

structure GrpcStream where
  streamId : UInt32
  messageData : FrameArray
  messageLen : Int
  isCompressed : Bool

def memcpy (dst : FrameArray) (src : List UInt8) (count : Int) : FrameArray := fun i =>
  if (i : Int) < count then src.getD i 0 else dst i

/-- The number in `n` bytes from `i` on. -/
def numberAt (data : List UInt8) (i n : Nat) : Nat := beNat ((data.drop i).take n)

/-- The length in the header as an `int32_t`, cut to what follows and to the array. -/
def clampLen (len : Nat) (rest : Int) : Int :=
  let dataLen := Int.bmod len (2 ^ 32)
  let dataLen := if rest < dataLen then rest else dataLen
  if (grpcMaxFrameSize : Int) < dataLen then grpcMaxFrameSize else dataLen

def grpcSimGrpcFrame (stream : GrpcStream) (frameData : List UInt8) (frameLen : Int32) :
    Option (GrpcStream × Int) :=
  if frameLen.toInt < 5 then none
  else
    let dataLen := clampLen (numberAt frameData 1 4) (frameLen.toInt - 5)
    some ({ stream with
      isCompressed := frameData.getD 0 0 = 1
      messageData := memcpy stream.messageData (frameData.drop 5) dataLen
      messageLen := dataLen }, dataLen)

def grpcSimParseGrpcFrame (data : List UInt8) (len : Int32) : Option (GrpcH2Frame × Int) :=
  if len.toInt < 9 then none
  else
    let payloadLen := numberAt data 0 3
    let plen := clampLen payloadLen (len.toInt - 9)
    some ({
      type := data.getD 3 0
      flags := data.getD 4 0
      streamId := UInt32.ofNat (numberAt data 5 4) &&& 0x7FFFFFFF
      payloadLen
      payload := memcpy (fun _ => 0) (data.drop 9) plen }, plen)

def grpcSimBuildH2Frame (frame : GrpcH2Frame) (isLast : Bool) : List UInt8 :=
  beBytes 3 frame.payloadLen ++
    [frame.type, frame.flags ||| (if isLast then 0x01 else 0x00),
      ((frame.streamId >>> 24) &&& 0x7F).toUInt8] ++
    beBytes 3 frame.streamId.toNat ++ (List.ofFn frame.payload).take frame.payloadLen

/-- The streams afterwards, when there is one with this identifier. -/
def grpcSimWriteStream : List GrpcStream → UInt32 → List UInt8 → Int32 →
    Option (List GrpcStream × Int)
  | [], _, _, _ => none
  | stream :: streams, streamId, data, len =>
      if stream.streamId = streamId then
        let clen := if (grpcMaxFrameSize : Int) < len.toInt then (grpcMaxFrameSize : Int)
          else len.toInt
        some ({ stream with
          messageData := memcpy stream.messageData data clen
          messageLen := clen } :: streams, clen)
      else
        (grpcSimWriteStream streams streamId data len).map fun (streams, clen) =>
          (stream :: streams, clen)

end MiniBackend.Api.Grpc
