import MiniBackend.Lib.ByteNumbers

/-!
# `websocket.c`

Encoding and decoding of frames.  No pointer is `NULL` but that to the payload of a frame, and
allocations succeed.  When a frame is decoded, the input is the part of `data` that is not read yet.
-/

namespace MiniBackend.WebServer.Websocket

open MiniBackend.Lib.ByteNumbers

def wsMaxFrameSize : Nat := 64 * 1024
def wsMaxPayload126 : Nat := 125
def wsPayload16bit : UInt8 := 126
def wsPayload64bit : UInt8 := 127

/-- `payloadData` is the memory at `payload_data`. -/
structure WsFrame where
  fin : Bool
  masked : Bool
  opcode : UInt8
  payloadLen : UInt64
  maskKey : Fin 4 → UInt8
  payloadData : Option (List UInt8)

def wsMaskPayload (data : List UInt8) (maskKey : Fin 4 → UInt8) : List UInt8 :=
  data.mapIdx fun i b => b ^^^ maskKey (Fin.ofNat 4 i)

/-! ## Encoding -/

def store (mem : Nat → UInt8) (pos : Nat) (bytes : List UInt8) : Nat → UInt8 :=
  fun i => if pos ≤ i ∧ i < pos + bytes.length then bytes.getD (i - pos) 0 else mem i

def maskBit (masked : Bool) : UInt8 := if masked then 0x80 else 0x00

def lengthBytes (masked : Bool) (plen : Nat) : List UInt8 :=
  if plen ≤ wsMaxPayload126 then [maskBit masked ||| UInt8.ofNat plen]
  else if plen ≤ 65535 then (maskBit masked ||| wsPayload16bit) :: beBytes 2 plen
  else (maskBit masked ||| wsPayload64bit) :: beBytes 8 plen

def frameHeader (frame : WsFrame) : List UInt8 :=
  ((if frame.fin then 0x80 else 0x00) ||| (frame.opcode &&& 0x0F)) ::
    lengthBytes frame.masked frame.payloadLen.toNat ++
      if frame.masked then List.ofFn frame.maskKey else []

/-- The result, and the memory at `out` after the call.  The header is written before the size is
checked. -/
def wsEncodeFrame (frame : WsFrame) (out : Nat → UInt8) (outSz : Nat) : Int × (Nat → UInt8) :=
  let header := frameHeader frame
  let out := store out 0 header
  let pos := (header.length + frame.payloadLen.toNat) % 2 ^ 64
  if outSz < pos then (-1, out)
  else
    match frame.payloadData with
    | none => (Int.bmod pos (2 ^ 32), out)
    | some data =>
        let payload := data.take frame.payloadLen.toNat
        (Int.bmod pos (2 ^ 32), store out header.length
          (if frame.masked then wsMaskPayload payload frame.maskKey else payload))

/-! ## Decoding -/

def zeroFrame : WsFrame := ⟨false, false, 0, 0, fun _ => 0, none⟩

/-- The length of the payload, whose seven low bits in the second byte are `low`. -/
def decodeLength (low : UInt8) (input : List UInt8) : Option (Nat × List UInt8) :=
  if low = wsPayload16bit then
    if input.length < 2 then none else some (beNat (input.take 2), input.drop 2)
  else if low = wsPayload64bit then
    if input.length < 8 then none else some (beNat (input.take 8), input.drop 8)
  else some (low.toNat, input)

def decodeHeader (b₀ b₁ : UInt8) : WsFrame :=
  { zeroFrame with fin := b₀ &&& 0x80 ≠ 0, opcode := b₀ &&& 0x0F, masked := b₁ &&& 0x80 ≠ 0 }

/-- The masking key and the payload, from behind the length. -/
def decodePayload (frame : WsFrame) (plen : Nat) (input : List UInt8) : Int × WsFrame :=
  if wsMaxFrameSize < plen then (-1, frame)
  else if frame.masked && input.length < 4 then (-1, frame)
  else
    let frame := if frame.masked then { frame with maskKey := fun j => input.getD j 0 } else frame
    let input := if frame.masked then input.drop 4 else input
    if input.length < plen then (-1, frame)
    else if plen = 0 then (0, frame)
    else
      let payload := input.take plen
      (0, { frame with
        payloadData := some (if frame.masked then wsMaskPayload payload frame.maskKey else payload)
        payloadLen := UInt64.ofNat plen })

/-- The code that is returned, and the frame after the call. -/
def wsDecodeFrame (data : List UInt8) (frame : WsFrame) : Int × WsFrame :=
  match data with
  | b₀ :: b₁ :: input =>
      match decodeLength (b₁ &&& 0x7F) input with
      | none => (-1, decodeHeader b₀ b₁)
      | some (plen, input) => decodePayload (decodeHeader b₀ b₁) plen input
  | _ => (-1, frame)

end MiniBackend.WebServer.Websocket
