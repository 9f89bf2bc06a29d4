import LightRpc.Lib.Segments
import LightRpc.Dispatcher
import LightRpc.PendingCalls

/- The frames of requests and responses: how `CallMethod`, `ReturnRPCResponse` and
   `SendErrorResponse` build them, and how `OnProcessRequest` (`fast_server.cc`) and
   `OnProcessResponse` (`fast_channel.cc`) take them apart.

   A handler gets its frame as an `IOBuf`, a list of references to pieces of blocks. The
   `IOBuf` operations `pop_front`, `cutn` and `copy_to` go from reference to reference
   (`skip`, `cut`, `copy`). The fixed fields are read in another way, as four bytes at the
   address `fetch1` returns, which is that of the first reference, or null. References of
   one block that follow each other are merged when they are pushed, so what lies behind
   a reference is not the next one.

   A handler ends in an `Action`: what it does about the frame. `PostLargeWriteRecv` and
   what follows it, `CutSegFromIOBuf` and the settling of a call are modelled where they
   belong. Lengths are 32-bit words; protobuf is a parameter. -/
namespace LightRpc.Frames

open Lib Lib.Cursor Pending

abbrev IOBuf := Segments UInt8

def MSG_NORMAL : Nat := 0
def MSG_NOTIFY : Nat := 1
def MSG_AUTHORITY : Nat := 2
def MSG_NORMAL_RESPONSE : Nat := 3

/-- `total_len`, `msg_type`, `rpc_id` and `data_total_len`. -/
def kNotifyFrameBytes : Nat := 16

/-- `total_len`, `msg_type`, `rpc_id`, `rkey` and the two halves of the address. -/
def kAuthFrameBytes : Nat := 24

structure MetaDataOfRequest where
  rpcId : Nat
  serviceName : String
  methodName : String
  attachmentSize : Nat
  deriving DecidableEq, Repr

/-! Building frames. -/

/-- `be = htonl(x); frame.append(&be, 4);` -/
def word (x : Nat) : Bytes := storeWord (htonl x)

/-- The frame of a call. `serialize` is protobuf's, `payload` the serialised request. -/
def callMethodFrame (serialize : MetaDataOfRequest → Bytes) (rpcId : Nat) (serviceName methodName : String)
    (payload attachment : Bytes) : Bytes :=
  let attachmentLen := attachment.length % 2 ^ 32
  let metaData := serialize ⟨rpcId, serviceName, methodName, attachmentLen⟩
  let metaLen := metaData.length % 2 ^ 32
  let payloadLen := payload.length % 2 ^ 32
  let totalLen := (16 + metaLen + payloadLen + attachmentLen) % 2 ^ 32
  word totalLen ++ word MSG_NORMAL ++ word rpcId ++ word metaLen ++ metaData ++ payload ++
    if 0 < attachmentLen then attachment else []

/-- What a service leaves in its `CallBackArgs`; `response` is null or the serialised message. -/
structure CallBackArgs where
  rpcId : Nat
  errorCode : Nat
  response : Option Bytes
  responseAttachment : Bytes
  deriving DecidableEq, Repr

def CallBackArgs.payload (args : CallBackArgs) : Bytes := args.response.getD []

def returnRPCResponseFrame (args : CallBackArgs) : Bytes :=
  let attachmentLen := args.responseAttachment.length % 2 ^ 32
  let payloadLen := args.payload.length % 2 ^ 32
  let totalLen := (20 + payloadLen + attachmentLen) % 2 ^ 32
  word totalLen ++ word MSG_NORMAL_RESPONSE ++ word args.rpcId ++ word args.errorCode ++ word attachmentLen ++
    args.payload ++ if 0 < attachmentLen then args.responseAttachment else []

def sendErrorResponseFrame (rpcId errorCode : Nat) : Bytes :=
  word 20 ++ word MSG_NORMAL_RESPONSE ++ word rpcId ++ word errorCode ++ storeWord 0

/-- A region of `LargeBlockAlloc`. -/
structure Region where
  rkey : Nat
  addr : Nat
  deriving DecidableEq, Repr

def authFrame (rpcId : Nat) (mr : Region) : Bytes :=
  word kAuthFrameBytes ++ word MSG_AUTHORITY ++ word rpcId ++ word mr.rkey ++ word (mr.addr >>> 32) ++
    word (mr.addr &&& 0xFFFFFFFF)

/-! Cutting the read buffer. -/

inductive CutFrame where
  | incomplete
  | invalid
  | frame (f rest : IOBuf)

/-- `CutInputMessage` on references. -/
def cutInputMessage (readBuf : IOBuf) : CutFrame :=
  if readBuf.content.length < 4 then .incomplete
  else
    let totalLen := ntohl (loadWord (readBuf.copy 4))
    if totalLen < kFrameHeaderBytes then .invalid
    else if readBuf.content.length < totalLen then .incomplete
    else .frame (readBuf.take totalLen) (readBuf.drop totalLen)

/-! Taking frames apart. -/

/-- The arguments `OnProcessRequest` calls a service with, and the lengths it computed on
    the way. -/
structure Call where
  rpcId : Nat
  metaLen : Nat
  headerSize : Nat
  payloadLen : Nat
  metaBuf : Bytes
  metaData : MetaDataOfRequest
  payload : Bytes
  attachment : Bytes
  deriving DecidableEq, Repr

inductive Action where
  /-- Returns -1, and nothing else. -/
  | reject
  /-- Returns -1 after `SendErrorResponse`. -/
  | sendErrorResponse (rpcId errorCode : Nat)
  /-- A receive is posted for the region, and an AUTHORITY frame sent. -/
  | postLargeWriteRecv (mr : Region) (frame : Bytes)
  /-- The stored frame is written to the peer's region. -/
  | cutSegFromIOBuf (rpcId rkey remoteAddr : Nat)
  | callMethod (call : Call)
  /-- A response for `pending_map_`. -/
  | respond (f : Response)
  deriving DecidableEq, Repr

/-- What the endpoint answers: the region `LargeBlockAlloc` finds for a length, and whether
    `GetLargeFrame` finds a frame. -/
structure Endpoint where
  largeBlockAlloc : Nat → Option Region
  getLargeFrame : Nat → Bool

def Endpoint.notify (ep : Endpoint) (rpcId dataTotalLen : Nat) : Action :=
  match ep.largeBlockAlloc dataTotalLen with
  | none => .reject
  | some mr => .postLargeWriteRecv mr (authFrame rpcId mr)

def Endpoint.authority (ep : Endpoint) (rpcId rkey hi lo : Nat) : Action :=
  if ep.getLargeFrame rpcId then .cutSegFromIOBuf rpcId rkey ((hi <<< 32) ||| lo) else .reject

/-- `ntohl(*static_cast<const uint32_t*>(frame.fetch1()))` -/
def fetchWord : Cursor UInt8 Nat := do
  let bytes ← peek 4
  return ntohl (loadWord bytes)

/-- The MSG_NOTIFY branch, the same in both handlers. -/
def onNotify (ep : Endpoint) (rpcId : Nat) : Cursor UInt8 Action := do
  let dataTotalLen ← fetchWord
  return ep.notify rpcId dataTotalLen

/-- The MSG_AUTHORITY branch, the same in both handlers. -/
def onAuthority (ep : Endpoint) (rpcId : Nat) : Cursor UInt8 Action := do
  let rkey ← fetchWord
  skip 4
  let hi ← fetchWord
  skip 4
  let lo ← fetchWord
  return ep.authority rpcId rkey hi lo

inductive Lookup where
  | unknownService
  | unknownMethod
  /-- The method, with the parser of its request. -/
  | found (parses : Bytes → Bool)

structure Server where
  /-- `ep->owner()` is set. -/
  owner : Bool
  /-- `ep->Failed()` -/
  failed : Bool
  endpoint : Endpoint
  parseMeta : Bytes → Option MetaDataOfRequest
  find : String → String → Lookup

/-- The MSG_NORMAL branch of `OnProcessRequest`, from `meta_len` on. -/
def onNormal (server : Server) (totalLen rpcId : Nat) : Cursor UInt8 Action := do
  let metaLen ← fetchWord
  skip 4
  let metaBuf ← cut metaLen
  match server.parseMeta metaBuf with
  | none => return .reject
  | some metaData =>
    let headerSize := (16 + metaLen) % 2 ^ 32
    if totalLen < headerSize ∨ totalLen - headerSize < metaData.attachmentSize then
      return .sendErrorResponse rpcId ERR_BAD_REQUEST
    else
      let payloadLen := totalLen - headerSize - metaData.attachmentSize
      match server.find metaData.serviceName metaData.methodName with
      | .unknownService => return .sendErrorResponse rpcId ERR_UNKNOWN_SERVICE
      | .unknownMethod => return .sendErrorResponse rpcId ERR_UNKNOWN_METHOD
      | .found parses =>
        let payload ← cut payloadLen
        if parses payload then
          let frame ← rest
          let attachment := if 0 < metaData.attachmentSize then frame else []
          return .callMethod ⟨rpcId, metaLen, headerSize, payloadLen, metaBuf, metaData, payload, attachment⟩
        else return .sendErrorResponse rpcId ERR_BAD_REQUEST

def onProcessRequest (server : Server) : Cursor UInt8 Action :=
  if !server.owner || server.failed then return .reject
  else do
    let totalLen ← fetchWord
    skip 4
    let msgType ← fetchWord
    skip 4
    let rpcId ← fetchWord
    skip 4
    if msgType = MSG_NOTIFY then onNotify server.endpoint rpcId
    else if msgType = MSG_AUTHORITY then onAuthority server.endpoint rpcId
    else onNormal server totalLen rpcId

structure Client where
  endpoint : Endpoint
  /-- The parser of the response a call waits for. -/
  parses : Nat → Bytes → Bool

/-- The MSG_NORMAL_RESPONSE branch of `OnProcessResponse`. -/
def onNormalResponse (client : Client) (rpcId : Nat) : Cursor UInt8 Action := do
  let errorCode ← fetchWord
  skip 4
  let attachmentSize ← fetchWord
  skip 4
  let body ← rest
  let payload := body.take (body.length - attachmentSize)
  return .respond ⟨rpcId, errorCode, attachmentSize, body, client.parses rpcId payload⟩

def onProcessResponse (client : Client) : Cursor UInt8 Action := do
  -- `total_len` is skipped
  skip 4
  let msgType ← fetchWord
  skip 4
  let rpcId ← fetchWord
  skip 4
  if msgType = MSG_NOTIFY then onNotify client.endpoint rpcId
  else if msgType = MSG_AUTHORITY then onAuthority client.endpoint rpcId
  else onNormalResponse client rpcId

end LightRpc.Frames
