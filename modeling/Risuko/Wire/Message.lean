import Risuko.Id20
import Risuko.Utp.Packet
import Risuko.Lib.Framing

/-!
# Peer wire messages

`wire/message.rs`: the messages two peers exchange, each behind a length of four bytes, with the encoder and the incremental decoder,
and the loop of `reader_task` that decodes what arrives. A buffer is a list of bytes. What a failed call of the decoder leaves in
its buffer is not modelled, since the reader stops there.
-/

namespace Risuko

def maxMessageBytes : Nat := 2 * 1024 * 1024

def maxPieceDataBytes : Nat := 64 * 1024

def maxExtendedBytes : Nat := 1024 * 1024

namespace MessageId

def choke : UInt8 := 0
def unchoke : UInt8 := 1
def interested : UInt8 := 2
def notInterested : UInt8 := 3
def have' : UInt8 := 4
def bitfield : UInt8 := 5
def request : UInt8 := 6
def piece : UInt8 := 7
def cancel : UInt8 := 8
def port : UInt8 := 9
def haveAll : UInt8 := 0x0E
def haveNone : UInt8 := 0x0F
def rejectRequest : UInt8 := 0x10
def suggestPiece : UInt8 := 0x0D
def allowedFast : UInt8 := 0x11
def extended : UInt8 := 20
def hashRequest : UInt8 := 21
def hashes : UInt8 := 22
def hashReject : UInt8 := 23

/-- The ids that have a message of their own. -/
def known : List UInt8 :=
  [choke, unchoke, interested, notInterested, have', bitfield, request, piece, cancel, port, haveAll, haveNone, rejectRequest,
    suggestPiece, allowedFast, extended, hashRequest, hashes, hashReject]

end MessageId

inductive MessageError where
  | truncated (id : UInt8) (expected got : Nat)
  | tooLarge (len : Nat)
  deriving DecidableEq

inductive Message where
  | keepAlive
  | choke
  | unchoke
  | interested
  | notInterested
  | have' (pieceIndex : UInt32)
  | bitfield (b : List UInt8)
  | request (index begin length : UInt32)
  | piece (index begin : UInt32) (data : List UInt8)
  | cancel (index begin length : UInt32)
  | port (number : UInt16)
  | haveAll
  | haveNone
  | rejectRequest (index begin length : UInt32)
  | suggestPiece (index : UInt32)
  | allowedFast (index : UInt32)
  | extended (extId : UInt8) (payload : List UInt8)
  | hashRequest (piecesRoot : Id32) (baseLayer index length proofLayers : UInt32)
  | hashes (piecesRoot : Id32) (baseLayer index length proofLayers : UInt32) (bytes : List UInt8)
  | hashReject (piecesRoot : Id32) (baseLayer index length proofLayers : UInt32)
  | unknown (id : UInt8) (payload : List UInt8)
  deriving DecidableEq

/-! ## Limits -/

/-- The lengths without the id that `body_len_allowed` knows to be exact. -/
def exactBodyLen (id : UInt8) : Option Nat :=
  if id ∈ [MessageId.choke, MessageId.unchoke, MessageId.interested, MessageId.notInterested] then some 0
  else if id ∈ [MessageId.have', MessageId.suggestPiece, MessageId.allowedFast] then some 4
  else if id ∈ [MessageId.request, MessageId.cancel, MessageId.rejectRequest] then some 12
  else if id = MessageId.port then some 2
  else if id ∈ [MessageId.haveAll, MessageId.haveNone] then some 0
  else if id ∈ [MessageId.hashRequest, MessageId.hashReject] then some 48
  else none

/-- The longest body `body_len_allowed` takes for an id that has no exact length. -/
def maxBodyLen (id : UInt8) : Nat :=
  if id = MessageId.piece then 1 + 8 + maxPieceDataBytes
  else if id = MessageId.extended then maxExtendedBytes
  else maxMessageBytes

/-- `body_len_allowed`. -/
def bodyLenAllowed (id : UInt8) (bodyLen : Nat) : Except MessageError Unit :=
  match exactBodyLen id with
  | some expected => if bodyLen ≠ 1 + expected then .error (.truncated id expected (bodyLen - 1)) else .ok ()
  | none => if maxBodyLen id < bodyLen then .error (.tooLarge bodyLen) else .ok ()

/-- `hashes_uncle_count`: the layers of the subtree are the exponent of the next power of two. -/
def hashesUncleCount (length proofLayers : UInt32) : Nat :=
  proofLayers.toNat + 1 - Nat.clog 2 (max length.toNat 1)

/-- The bytes of hashes that a `Hashes` message announces. -/
def expectedHashBytes (length proofLayers : UInt32) : Nat := (length.toNat + hashesUncleCount length proofLayers) * 32

/-! ## Encoding -/

/-- The numbers of a request. -/
def putTriple (index begin length : UInt32) : List UInt8 := beBytes32 index ++ (beBytes32 begin ++ beBytes32 length)

/-- The fields that the messages about hashes share. -/
def putHashFields (piecesRoot : Id32) (baseLayer index length proofLayers : UInt32) : List UInt8 :=
  piecesRoot.bytes ++ (beBytes32 baseLayer ++ (beBytes32 index ++ (beBytes32 length ++ beBytes32 proofLayers)))

/-- What `encode_into` puts behind the length. -/
def Message.encodeBody : Message → List UInt8
  | keepAlive => []
  | choke => [MessageId.choke]
  | unchoke => [MessageId.unchoke]
  | interested => [MessageId.interested]
  | notInterested => [MessageId.notInterested]
  | have' pieceIndex => MessageId.have' :: beBytes32 pieceIndex
  | bitfield b => MessageId.bitfield :: b
  | request index begin length => MessageId.request :: putTriple index begin length
  | piece index begin data => MessageId.piece :: (beBytes32 index ++ (beBytes32 begin ++ data))
  | cancel index begin length => MessageId.cancel :: putTriple index begin length
  | port number => MessageId.port :: beBytes16 number
  | haveAll => [MessageId.haveAll]
  | haveNone => [MessageId.haveNone]
  | rejectRequest index begin length => MessageId.rejectRequest :: putTriple index begin length
  | suggestPiece index => MessageId.suggestPiece :: beBytes32 index
  | allowedFast index => MessageId.allowedFast :: beBytes32 index
  | extended extId payload => MessageId.extended :: extId :: payload
  | hashRequest piecesRoot baseLayer index length proofLayers =>
    MessageId.hashRequest :: putHashFields piecesRoot baseLayer index length proofLayers
  | hashes piecesRoot baseLayer index length proofLayers bytes =>
    MessageId.hashes :: (putHashFields piecesRoot baseLayer index length proofLayers ++ bytes)
  | hashReject piecesRoot baseLayer index length proofLayers =>
    MessageId.hashReject :: putHashFields piecesRoot baseLayer index length proofLayers
  | unknown id payload => id :: payload

/-- `MessageEncoder::encode`. The length is cut to 32 bits. -/
def Message.encode (msg : Message) : List UInt8 := beBytes32 (UInt32.ofNat msg.encodeBody.length) ++ msg.encodeBody

/-! ## Decoding -/

/-- `get_u32`, with the bytes after it. -/
def getU32 (buf : List UInt8) : UInt32 × List UInt8 :=
  (ofBeBytes32 (buf.getD 0 0) (buf.getD 1 0) (buf.getD 2 0) (buf.getD 3 0), buf.drop 4)

/-- `get_u16`. -/
def getU16 (buf : List UInt8) : UInt16 := ofBeBytes16 (buf.getD 0 0) (buf.getD 1 0)

/-- The arms of `try_decode` that ask for an exact length. -/
def exactly (id : UInt8) (expected : Nat) (body : List UInt8) (msg : Message) : Except MessageError Message :=
  if body.length ≠ expected then .error (.truncated id expected body.length) else .ok msg

/-- The arms that ask for a least length. -/
def atLeast (id : UInt8) (expected : Nat) (body : List UInt8) (msg : Except MessageError Message) : Except MessageError Message :=
  if body.length < expected then .error (.truncated id expected body.length) else msg

/-- Read the numbers of a request. -/
def getTriple (body : List UInt8) (mk : UInt32 → UInt32 → UInt32 → Message) : Message :=
  let index := getU32 body
  let begin := getU32 index.2
  let length := getU32 begin.2
  mk index.1 begin.1 length.1

/-- Read the fields that the messages about hashes share, with the bytes after them. -/
def getHashFields {α : Type} (body : List UInt8) (mk : Id32 → UInt32 → UInt32 → UInt32 → UInt32 → List UInt8 → α) : α :=
  let baseLayer := getU32 (body.drop 32)
  let index := getU32 baseLayer.2
  let length := getU32 index.2
  let proofLayers := getU32 length.2
  mk (Id32.ofSlice body) baseLayer.1 index.1 length.1 proofLayers.1 proofLayers.2

/-- The arm of `try_decode` for `Hashes`. With words of 64 bits the checked arithmetic does not overflow. -/
def decodeHashes (piecesRoot : Id32) (baseLayer index length proofLayers : UInt32) (hashes : List UInt8) :
    Except MessageError Message :=
  if hashes.length ≠ expectedHashBytes length proofLayers then
    .error (.truncated MessageId.hashes (expectedHashBytes length proofLayers) hashes.length)
  else .ok (.hashes piecesRoot baseLayer index length proofLayers hashes)

/-- The arms of `try_decode`: a message from its id and the rest of its body. -/
def decodeBody (id : UInt8) (body : List UInt8) : Except MessageError Message :=
  if id = MessageId.choke then .ok .choke
  else if id = MessageId.unchoke then .ok .unchoke
  else if id = MessageId.interested then .ok .interested
  else if id = MessageId.notInterested then .ok .notInterested
  else if id = MessageId.have' then exactly id 4 body (.have' (getU32 body).1)
  else if id = MessageId.bitfield then .ok (.bitfield body)
  else if id = MessageId.request then exactly id 12 body (getTriple body .request)
  else if id = MessageId.piece then
    atLeast id 8 body (.ok (.piece (getU32 body).1 (getU32 (getU32 body).2).1 (getU32 (getU32 body).2).2))
  else if id = MessageId.cancel then exactly id 12 body (getTriple body .cancel)
  else if id = MessageId.port then exactly id 2 body (.port (getU16 body))
  else if id = MessageId.haveAll then exactly id 0 body .haveAll
  else if id = MessageId.haveNone then exactly id 0 body .haveNone
  else if id = MessageId.rejectRequest then exactly id 12 body (getTriple body .rejectRequest)
  else if id = MessageId.suggestPiece then exactly id 4 body (.suggestPiece (getU32 body).1)
  else if id = MessageId.allowedFast then exactly id 4 body (.allowedFast (getU32 body).1)
  else if id = MessageId.extended then atLeast id 1 body (.ok (.extended (body.getD 0 0) (body.drop 1)))
  else if id = MessageId.hashRequest then
    exactly id 48 body (getHashFields body (fun piecesRoot baseLayer index length proofLayers _ =>
      .hashRequest piecesRoot baseLayer index length proofLayers))
  else if id = MessageId.hashReject then
    exactly id 48 body (getHashFields body (fun piecesRoot baseLayer index length proofLayers _ =>
      .hashReject piecesRoot baseLayer index length proofLayers))
  else if id = MessageId.hashes then atLeast id 48 body (getHashFields body decodeHashes)
  else .ok (.unknown id body)

/-- `MessageDecoder::try_decode`: a message and the buffer behind it, or nothing yet. -/
def tryDecode (buf : List UInt8) : Except MessageError (Option (Message × List UInt8)) :=
  if buf.length < 4 then .ok none
  else
    let bodyLen := (getU32 buf).1.toNat
    if maxMessageBytes < bodyLen then .error (.tooLarge bodyLen)
    else
      match (if 0 < bodyLen && 4 < buf.length then bodyLenAllowed (buf.getD 4 0) bodyLen else .ok ()) with
      | .error e => .error e
      | .ok () =>
        if buf.length < 4 + bodyLen then .ok none
        else
          let frame := (buf.drop 4).take bodyLen
          let rest := (buf.drop 4).drop bodyLen
          match frame with
          | [] => .ok (some (.keepAlive, rest))
          | id :: body =>
            match decodeBody id body with
            | .error e => .error e
            | .ok msg => .ok (some (msg, rest))

/-- The loop of `reader_task` over the chunks that arrive. -/
def readerTask (chunks : List (List UInt8)) : Reader UInt8 Message MessageError := Reader.feedAll tryDecode chunks

end Risuko
