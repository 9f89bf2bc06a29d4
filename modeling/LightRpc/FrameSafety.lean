import LightRpc.Frames

/- What the handlers make of a frame.

   `decodeRequest` and `decodeResponse` say what a frame means as a byte string. A handler
   that finds each fixed field of its frame inside one reference does what they say and
   has read nothing else (`onProcessRequest_decodes`, `onProcessResponse_decodes`); and a
   handler that stays inside the references has found them so (`clean_onProcessRequest`,
   `clean_onProcessResponse`). The code checks neither that a field is in one reference
   nor that the frame is long enough for its type. -/
namespace LightRpc.Frames

open Lib Lib.Cursor Pending List

variable {a : Action} {fields : List Nat} {client : Client}

variable {f : IOBuf} {b : Bytes} {args : CallBackArgs} {r : Segment UInt8}

/-! Frames as byte strings. -/

/-- The field at position `o`. -/
def wordAt (b : Bytes) (o : Nat) : Nat := ntohl (loadWord ((b.drop o).take 4))

def msgType (b : Bytes) : Nat := wordAt b 4

/-- The fixed fields after `rpc_id`, with those of a normal message given. -/
def branchFields (b : Bytes) (normal : List Nat) : List Nat :=
  if msgType b = MSG_NOTIFY then [12] else if msgType b = MSG_AUTHORITY then [12, 16, 20] else normal

/-- Where the fixed fields of a frame are that `OnProcessRequest` gets. -/
def requestFields (b : Bytes) : List Nat := 0 :: 4 :: 8 :: branchFields b [12]

def responseFields (b : Bytes) : List Nat := 4 :: 8 :: branchFields b [12, 16]

/-- The MSG_NORMAL frame `b`. -/
def decodeNormal (server : Server) (b : Bytes) : Action :=
  let rpcId := wordAt b 8
  let metaLen := wordAt b 12
  let metaBuf := (b.drop 16).take metaLen
  match server.parseMeta metaBuf with
  | none => .reject
  | some metaData =>
    let headerSize := (16 + metaLen) % 2 ^ 32
    if wordAt b 0 < headerSize ∨ wordAt b 0 - headerSize < metaData.attachmentSize then
      .sendErrorResponse rpcId ERR_BAD_REQUEST
    else
      let payloadLen := wordAt b 0 - headerSize - metaData.attachmentSize
      match server.find metaData.serviceName metaData.methodName with
      | .unknownService => .sendErrorResponse rpcId ERR_UNKNOWN_SERVICE
      | .unknownMethod => .sendErrorResponse rpcId ERR_UNKNOWN_METHOD
      | .found parses =>
        let payload := (b.drop (16 + metaLen)).take payloadLen
        if parses payload then
          let attachment := if 0 < metaData.attachmentSize then b.drop (16 + metaLen + payloadLen) else []
          .callMethod ⟨rpcId, metaLen, headerSize, payloadLen, metaBuf, metaData, payload, attachment⟩
        else .sendErrorResponse rpcId ERR_BAD_REQUEST

/-- A large-transfer message, or a normal one that means `normal`. -/
def decodeBranch (ep : Endpoint) (b : Bytes) (normal : Action) : Action :=
  if msgType b = MSG_NOTIFY then ep.notify (wordAt b 8) (wordAt b 12)
  else if msgType b = MSG_AUTHORITY then ep.authority (wordAt b 8) (wordAt b 12) (wordAt b 16) (wordAt b 20)
  else normal

def decodeRequest (server : Server) (b : Bytes) : Action := decodeBranch server.endpoint b (decodeNormal server b)

def decodeNormalResponse (client : Client) (b : Bytes) : Response :=
  let body := b.drop 20
  ⟨wordAt b 8, wordAt b 12, wordAt b 16, body, client.parses (wordAt b 8) (body.take (body.length - wordAt b 16))⟩

def decodeResponse (client : Client) (b : Bytes) : Action :=
  decodeBranch client.endpoint b (.respond (decodeNormalResponse client b))

/-! The handlers, branch by branch. -/

section
variable {f : IOBuf} {o : Nat} {γ : Type} (k : Nat → Cursor UInt8 γ)

/-- A read of the field at `o` that stayed inside. -/
def fieldRead (b : Bytes) (o : Nat) : Access UInt8 := ⟨(b.drop o).take 4, true⟩

theorem fetchWord_bind (h : f.Inside o 4) : (fetchWord >>= k) (f.drop o) =
    ⟨fieldRead f.content o :: (k (wordAt f.content o) (f.drop o)).reads, (k (wordAt f.content o) (f.drop o)).result⟩ := by
  rw [fetchWord, map_bind, peek_bind f o 4 _ h]
  rfl

theorem clean_fetchWord :
    ((fetchWord >>= k) (f.drop o)).Clean ↔ f.Inside o 4 ∧ (k (wordAt f.content o) (f.drop o)).Clean := by
  rw [fetchWord, map_bind, clean_peek]
  rfl

end

/-- The trace of a handler that read the fields at `os` of the frame `b`, all inside, and
    decided on `a`. -/
structure Decodes (t : Trace UInt8 (Action × IOBuf)) (b : Bytes) (os : List Nat) (a : Action) : Prop where
  reads : t.reads = os.map (fieldRead b)
  action : t.result.map Prod.fst = some a

theorem Decodes.pure (a : Action) (f : IOBuf) : Decodes ((pure a : Cursor UInt8 Action) f) b [] a :=
  ⟨rfl, rfl⟩

theorem Decodes.clean {t : Trace UInt8 (Action × IOBuf)} {os : List Nat} (h : Decodes t b os a) : t.Clean := by
  refine ⟨?_, ?_⟩
  · have := h.action
    cases hr : t.result with
    | none => simp [hr] at this
    | some x => rfl
  · rw [h.reads]
    intro x hx
    obtain ⟨o, _, rfl⟩ := mem_map.mp hx
    rfl

section
variable {o : Nat} {os : List Nat}

theorem Decodes.fetch {k : Nat → Cursor UInt8 Action} (h : f.Inside o 4)
    (hk : Decodes (k (wordAt f.content o) (f.drop o)) f.content os a) :
    Decodes ((fetchWord >>= k) (f.drop o)) f.content (o :: os) a := by
  rw [fetchWord_bind k h]
  refine ⟨?_, hk.action⟩
  rw [map_cons, ← hk.reads]

theorem Decodes.skip {n : Nat} {k : Unit → Cursor UInt8 Action} (hk : Decodes (k () (f.drop (o + n))) f.content os a) :
    Decodes ((Cursor.skip n >>= k) (f.drop o)) f.content os a := by
  rw [skip_bind]
  exact hk

end

section
variable (f : IOBuf) (ep : Endpoint) (server : Server) (client : Client) (rpcId : Nat)

theorem onNotify_decodes (h : f.Inside 12 4) :
    Decodes (onNotify ep rpcId (f.drop 12)) f.content [12] (ep.notify rpcId (wordAt f.content 12)) :=
  .fetch h (.pure _ _)

theorem onAuthority_decodes (hrkey : f.Inside 12 4) (hhi : f.Inside 16 4) (hlo : f.Inside 20 4) :
    Decodes (onAuthority ep rpcId (f.drop 12)) f.content [12, 16, 20]
      (ep.authority rpcId (wordAt f.content 12) (wordAt f.content 16) (wordAt f.content 20)) :=
  .fetch hrkey (.skip (.fetch hhi (.skip (.fetch hlo (.pure _ _)))))

theorem onNormalResponse_decodes (hcode : f.Inside 12 4) (hsize : f.Inside 16 4) :
    Decodes (onNormalResponse client (wordAt f.content 8) (f.drop 12)) f.content [12, 16]
      (.respond (decodeNormalResponse client f.content)) := by
  refine .fetch hcode (.skip (.fetch hsize (.skip ?_)))
  rw [rest_bind]
  exact .pure _ _

theorem onNormal_decodes (h : f.Inside 12 4) :
    Decodes (onNormal server (wordAt f.content 0) (wordAt f.content 8) (f.drop 12)) f.content [12]
      (decodeNormal server f.content) := by
  refine .fetch h (.skip ?_)
  rw [cut_bind, decodeNormal]
  cases server.parseMeta ((f.content.drop 16).take (wordAt f.content 12)) with
  | none => exact .pure _ _
  | some metaData =>
    simp only
    split
    · exact .pure _ _
    · cases server.find metaData.serviceName metaData.methodName with
      | unknownService => exact .pure _ _
      | unknownMethod => exact .pure _ _
      | found parses =>
        simp only [cut_bind]
        split
        · rw [rest_bind]
          exact .pure _ _
        · exact .pure _ _

theorem clean_onNotify (h : (onNotify ep rpcId (f.drop 12)).Clean) : f.Inside 12 4 :=
  ((clean_fetchWord _).mp h).1

theorem clean_onAuthority (h : (onAuthority ep rpcId (f.drop 12)).Clean) : ∀ o ∈ [12, 16, 20], f.Inside o 4 := by
  obtain ⟨hrkey, h⟩ := (clean_fetchWord _).mp h
  rw [skip_bind] at h
  obtain ⟨hhi, h⟩ := (clean_fetchWord _).mp h
  rw [skip_bind] at h
  obtain ⟨hlo, _⟩ := (clean_fetchWord _).mp h
  simp only [forall_mem_cons]
  exact ⟨hrkey, hhi, hlo, forall_mem_nil _⟩

theorem clean_onNormalResponse (h : (onNormalResponse client rpcId (f.drop 12)).Clean) :
    ∀ o ∈ [12, 16], f.Inside o 4 := by
  obtain ⟨hcode, h⟩ := (clean_fetchWord _).mp h
  rw [skip_bind] at h
  obtain ⟨hsize, _⟩ := (clean_fetchWord _).mp h
  simp only [forall_mem_cons]
  exact ⟨hcode, hsize, forall_mem_nil _⟩

/-! The handlers. -/

/-- The branch on the message type, in both handlers. -/
def onBranch (normal : Cursor UInt8 Action) : Cursor UInt8 Action :=
  if msgType f.content = MSG_NOTIFY then onNotify ep (wordAt f.content 8)
  else if msgType f.content = MSG_AUTHORITY then onAuthority ep (wordAt f.content 8)
  else normal

theorem onBranch_decodes {normal : Cursor UInt8 Action}
    (hnormal : (∀ o ∈ fields, f.Inside o 4) → Decodes (normal (f.drop 12)) f.content fields a)
    (h : ∀ o ∈ branchFields f.content fields, f.Inside o 4) :
    Decodes (onBranch f ep normal (f.drop 12)) f.content (branchFields f.content fields)
      (decodeBranch ep f.content a) := by
  rw [onBranch, decodeBranch]
  rw [branchFields] at h ⊢
  split_ifs at h ⊢ with hnotify hauthority
  · exact onNotify_decodes f ep _ (h 12 (by simp))
  · exact onAuthority_decodes f ep _ (h 12 (by simp)) (h 16 (by simp)) (h 20 (by simp))
  · exact hnormal h

theorem clean_onBranch {normal : Cursor UInt8 Action}
    (hnormal : (normal (f.drop 12)).Clean → ∀ o ∈ fields, f.Inside o 4) (h : (onBranch f ep normal (f.drop 12)).Clean) :
    ∀ o ∈ branchFields f.content fields, f.Inside o 4 := by
  rw [onBranch] at h
  rw [branchFields]
  split_ifs at h ⊢ with hnotify hauthority
  · simpa using clean_onNotify f ep _ h
  · exact clean_onAuthority f ep _ h
  · exact hnormal h

theorem onProcessRequest_idle (h : (!server.owner || server.failed)) :
    onProcessRequest server f = ⟨[], some (.reject, f)⟩ := by
  rw [onProcessRequest, if_pos h]
  rfl

theorem onProcessRequest_decodes (hserving : (!server.owner || server.failed) = false)
    (h : ∀ o ∈ requestFields f.content, f.Inside o 4) :
    Decodes (onProcessRequest server f) f.content (requestFields f.content) (decodeRequest server f.content) := by
  simp only [requestFields, forall_mem_cons] at h
  obtain ⟨htotal, htype, hid, hbranch⟩ := h
  have hnormal : (∀ o ∈ [12], f.Inside o 4) → Decodes
      (onNormal server (wordAt f.content 0) (wordAt f.content 8) (f.drop 12)) f.content [12]
      (decodeNormal server f.content) := by
    intro hmeta
    exact onNormal_decodes f server (hmeta 12 (by simp))
  have hstart : Decodes (onProcessRequest server (f.drop 0)) f.content (requestFields f.content)
      (decodeRequest server f.content) := by
    rw [onProcessRequest, hserving, if_neg Bool.false_ne_true]
    refine .fetch htotal (.skip (.fetch htype (.skip (.fetch hid (.skip ?_)))))
    exact onBranch_decodes f server.endpoint hnormal hbranch
  rwa [f.drop_zero] at hstart

theorem clean_onProcessRequest (hserving : (!server.owner || server.failed) = false) :
    (onProcessRequest server f).Clean ↔ ∀ o ∈ requestFields f.content, f.Inside o 4 := by
  constructor
  · intro h
    rw [← f.drop_zero, onProcessRequest, hserving, if_neg Bool.false_ne_true] at h
    obtain ⟨htotal, h⟩ := (clean_fetchWord _).mp h
    rw [skip_bind] at h
    obtain ⟨htype, h⟩ := (clean_fetchWord _).mp h
    rw [skip_bind] at h
    obtain ⟨hid, h⟩ := (clean_fetchWord _).mp h
    rw [skip_bind] at h
    simp only [requestFields, forall_mem_cons]
    refine ⟨htotal, htype, hid, clean_onBranch f server.endpoint ?_ h⟩
    intro hnormal
    simpa using ((clean_fetchWord _).mp hnormal).1
  · intro h
    exact (onProcessRequest_decodes f server hserving h).clean

theorem onProcessResponse_decodes (h : ∀ o ∈ responseFields f.content, f.Inside o 4) :
    Decodes (onProcessResponse client f) f.content (responseFields f.content) (decodeResponse client f.content) := by
  simp only [responseFields, forall_mem_cons] at h
  obtain ⟨htype, hid, hbranch⟩ := h
  have hnormal : (∀ o ∈ [12, 16], f.Inside o 4) → Decodes
      (onNormalResponse client (wordAt f.content 8) (f.drop 12)) f.content [12, 16]
      (.respond (decodeNormalResponse client f.content)) := by
    intro hfields
    exact onNormalResponse_decodes f client (hfields 12 (by simp)) (hfields 16 (by simp))
  have hstart : Decodes (onProcessResponse client (f.drop 0)) f.content (responseFields f.content)
      (decodeResponse client f.content) := by
    refine .skip (.fetch htype (.skip (.fetch hid (.skip ?_))))
    exact onBranch_decodes f client.endpoint hnormal hbranch
  rwa [f.drop_zero] at hstart

theorem clean_onProcessResponse :
    (onProcessResponse client f).Clean ↔ ∀ o ∈ responseFields f.content, f.Inside o 4 := by
  constructor
  · intro h
    rw [← f.drop_zero, onProcessResponse, skip_bind] at h
    obtain ⟨htype, h⟩ := (clean_fetchWord _).mp h
    rw [skip_bind] at h
    obtain ⟨hid, h⟩ := (clean_fetchWord _).mp h
    rw [skip_bind] at h
    simp only [responseFields, forall_mem_cons]
    exact ⟨htype, hid, clean_onBranch f client.endpoint (clean_onNormalResponse f client _) h⟩
  · intro h
    exact (onProcessResponse_decodes f client h).clean

end

/-! What `CutInputMessage` hands over. -/

def CutFrame.bytes : CutFrame → CutResult
  | .incomplete => .incomplete
  | .invalid => .invalid
  | .frame f rest => .frame f.content rest.content

/-- On references `CutInputMessage` does what it does on bytes. -/
theorem cutInputMessage_bytes (readBuf : IOBuf) :
    (cutInputMessage readBuf).bytes = LightRpc.cutInputMessage readBuf.content := by
  rw [cutInputMessage, LightRpc.cutInputMessage]
  by_cases h4 : readBuf.content.length < 4
  · rw [if_pos h4, if_pos h4]
    rfl
  · have htotal : ntohl (loadWord (readBuf.copy 4)) = totalLen readBuf.content := by
      have hlen : 4 ≤ (readBuf.content.take 4).length := by
        rw [length_take]
        omega
      rw [Segments.copy_eq, totalLen, ← loadWord_append hlen (readBuf.content.drop 4), take_append_drop]
    rw [if_neg h4, if_neg h4, htotal]
    simp only
    split_ifs
    · rfl
    · rfl
    · rw [CutFrame.bytes, Segments.content_take, Segments.content_drop]

/-- The cut frame is as long as it says, and has its three common fields. -/
theorem cutInputMessage_accepted {readBuf rest : IOBuf} (h : cutInputMessage readBuf = .frame f rest) :
    kFrameHeaderBytes ≤ f.content.length ∧ wordAt f.content 0 = f.content.length := by
  have hbytes := cutInputMessage_bytes readBuf
  rw [h, CutFrame.bytes, LightRpc.cutInputMessage] at hbytes
  split_ifs at hbytes with h4 hheader hshort
  obtain ⟨hf, _⟩ := CutResult.frame.inj hbytes
  have hlen : f.content.length = totalLen readBuf.content := by
    rw [hf, length_take]
    omega
  have hmin : 12 ≤ totalLen readBuf.content := Nat.le_of_not_lt hheader
  have htake : (f.content.take 4).length = 4 := by
    rw [length_take, hlen]
    omega
  have hword : loadWord (f.content.take 4) = loadWord readBuf.content := by
    have h4 : f.content.take 4 = readBuf.content.take 4 := by
      rw [hf, take_take, Nat.min_eq_left (by omega)]
    calc loadWord (f.content.take 4)
        = loadWord (f.content.take 4 ++ readBuf.content.drop 4) := (loadWord_append htake.ge _).symm
      _ = loadWord readBuf.content := by rw [h4, take_append_drop]
  refine ⟨?_, ?_⟩
  · rw [hlen]
    exact Nat.le_of_not_lt hheader
  · rw [wordAt, drop_zero, hword, hlen, totalLen]

/-- A frame that is all of the read buffer is cut as it lies there. -/
theorem cutInputMessage_self (hmin : kFrameHeaderBytes ≤ f.content.length)
    (htotal : wordAt f.content 0 = f.content.length) : cutInputMessage f = .frame f [] := by
  have hword : ntohl (loadWord (f.copy 4)) = f.content.length := by
    rw [Segments.copy_eq, ← htotal, wordAt, drop_zero]
  have h4 : ¬ f.content.length < 4 := by
    rw [kFrameHeaderBytes] at hmin
    omega
  rw [cutInputMessage, if_neg h4]
  simp only [hword, Nat.not_lt.mpr hmin, if_false, Nat.lt_irrefl, Segments.take_length, Segments.drop_length]

/-- However the read buffer lies in memory, the frame is cut off it, and the handler comes to
    `a` if the frame's first `header` bytes lie in one reference. -/
def Carries (frame : Bytes) (handler : Cursor UInt8 Action) (header : Nat) (a : Action) : Prop :=
  ∀ (readBuf : IOBuf) tail, readBuf.content = frame ++ tail →
    ∃ f rest, cutInputMessage readBuf = .frame f rest ∧ f.content = frame ∧ rest.content = tail ∧
      (f.Inside 0 header → (handler f).result.map Prod.fst = some a)

theorem Carries.intro {frame : Bytes} {handler : Cursor UInt8 Action} {header : Nat}
    (hmin : kFrameHeaderBytes ≤ frame.length) (htotal : totalLen frame = frame.length)
    (h : ∀ f : IOBuf, f.content = frame → f.Inside 0 header → (handler f).result.map Prod.fst = some a) :
    Carries frame handler header a := by
  intro readBuf tail hbuf
  have hbytes := cutInputMessage_bytes readBuf
  rw [hbuf, cutInputMessage_frame ⟨frame, hmin, htotal⟩] at hbytes
  cases hcut : cutInputMessage readBuf with
  | incomplete | invalid =>
    rw [hcut] at hbytes
    cases hbytes
  | frame f rest =>
    rw [hcut] at hbytes
    obtain ⟨hf, hrest⟩ := CutResult.frame.inj hbytes
    exact ⟨f, rest, rfl, hf, hrest, h f hf⟩

/-! Reading built frames. -/

theorem word_length (x : Nat) : (word x).length = 4 := rfl

theorem wordAt_word_zero {x : Nat} (h : x < 2 ^ 32) (b : Bytes) : wordAt (word x ++ b) 0 = x := by
  have htake : (word x ++ b).take 4 = word x := rfl
  rw [wordAt, drop_zero, htake, word, ← append_nil (storeWord _), loadWord_storeWord (htonl_lt x)]
  exact ntohl_htonl h

theorem drop_word (x : Nat) (b : Bytes) (o : Nat) : (word x ++ b).drop (o + 4) = b.drop o := by
  rw [drop_append, word_length, Nat.add_sub_cancel, drop_eq_nil_iff.mpr, nil_append]
  rw [word_length]
  omega

theorem wordAt_word (x : Nat) (b : Bytes) (o : Nat) : wordAt (word x ++ b) (o + 4) = wordAt b o := by
  rw [wordAt, drop_word, wordAt]

theorem totalLen_word {x : Nat} (h : x < 2 ^ 32) (b : Bytes) : totalLen (word x ++ b) = x := by
  rw [totalLen, word, loadWord_storeWord (htonl_lt x)]
  exact ntohl_htonl h

section
variable {serialize : MetaDataOfRequest → Bytes} {rpcId : Nat} {serviceName methodName : String}
  {payload attachment : Bytes}

/-- The attachment is appended if it is there. -/
theorem append_attachment (attachment : Bytes) : (if 0 < attachment.length then attachment else []) = attachment := by
  cases attachment <;> rfl

theorem callMethodFrame_eq {metaData : Bytes}
    (hmeta : serialize ⟨rpcId, serviceName, methodName, attachment.length⟩ = metaData)
    (hlen : 16 + metaData.length + payload.length + attachment.length < 2 ^ 32) :
    callMethodFrame serialize rpcId serviceName methodName payload attachment =
      word (16 + metaData.length + payload.length + attachment.length) ++ (word MSG_NORMAL ++ (word rpcId ++
        (word metaData.length ++ (metaData ++ (payload ++ attachment))))) := by
  have hatt : attachment.length % 2 ^ 32 = attachment.length := Nat.mod_eq_of_lt (by omega)
  have hpay : payload.length % 2 ^ 32 = payload.length := Nat.mod_eq_of_lt (by omega)
  have hmetaLen : metaData.length % 2 ^ 32 = metaData.length := Nat.mod_eq_of_lt (by omega)
  simp only [callMethodFrame, hatt, hmeta, hpay, hmetaLen, Nat.mod_eq_of_lt hlen, append_attachment, append_assoc]

/-- What a request frame means to a server that knows the method. -/
theorem decodeRequest_callMethod {server : Server} {metaData : Bytes} {parses : Bytes → Bool} (hrpc : rpcId < 2 ^ 32)
    (hparse : server.parseMeta metaData = some ⟨rpcId, serviceName, methodName, attachment.length⟩)
    (hfind : server.find serviceName methodName = .found parses) (hpayload : parses payload)
    (hlen : 16 + metaData.length + payload.length + attachment.length < 2 ^ 32) :
    decodeRequest server (word (16 + metaData.length + payload.length + attachment.length) ++ (word MSG_NORMAL ++
        (word rpcId ++ (word metaData.length ++ (metaData ++ (payload ++ attachment)))))) =
      .callMethod ⟨rpcId, metaData.length, 16 + metaData.length, payload.length, metaData,
        ⟨rpcId, serviceName, methodName, attachment.length⟩, payload, attachment⟩ := by
  generalize hb : word (16 + metaData.length + payload.length + attachment.length) ++ (word MSG_NORMAL ++
    (word rpcId ++ (word metaData.length ++ (metaData ++ (payload ++ attachment))))) = b
  have htotal : wordAt b 0 = 16 + metaData.length + payload.length + attachment.length := by
    rw [← hb]
    exact wordAt_word_zero hlen _
  have htype : msgType b = MSG_NORMAL := by
    rw [← hb, msgType, wordAt_word _ _ 0]
    exact wordAt_word_zero (by decide) _
  have hid : wordAt b 8 = rpcId := by
    rw [← hb, wordAt_word _ _ 4, wordAt_word _ _ 0]
    exact wordAt_word_zero hrpc _
  have hmetaLen : wordAt b 12 = metaData.length := by
    rw [← hb, wordAt_word _ _ 8, wordAt_word _ _ 4, wordAt_word _ _ 0]
    exact wordAt_word_zero (by omega) _
  have hbody : b.drop 16 = metaData ++ (payload ++ attachment) := by
    rw [← hb, drop_word _ _ 12, drop_word _ _ 8, drop_word _ _ 4, drop_word _ _ 0, drop_zero]
  have hafter : b.drop (16 + metaData.length) = payload ++ attachment := by
    rw [← drop_drop, hbody, drop_left]
  have hrest : b.drop (16 + metaData.length + payload.length) = attachment := by
    rw [← drop_drop, hafter, drop_left]
  have hheader : (16 + metaData.length) % 2 ^ 32 = 16 + metaData.length := Nat.mod_eq_of_lt (by omega)
  have hpayloadLen : 16 + metaData.length + payload.length + attachment.length - (16 + metaData.length) -
      attachment.length = payload.length := by omega
  have hfits : ¬ (16 + metaData.length + payload.length + attachment.length < 16 + metaData.length ∨
      16 + metaData.length + payload.length + attachment.length - (16 + metaData.length) < attachment.length) := by
    omega
  rw [decodeRequest, decodeBranch, htype, if_neg (by decide), if_neg (by decide), decodeNormal]
  simp only [hid, hmetaLen, htotal, hheader, hbody, take_left, hparse, if_neg hfits, hfind, hpayloadLen, hafter,
    hpayload, if_true, hrest, append_attachment]

end

/-- The response in a frame of `ReturnRPCResponse`. -/
def CallBackArgs.decoded (client : Client) (args : CallBackArgs) : Response :=
  ⟨args.rpcId, args.errorCode, args.responseAttachment.length, args.payload ++ args.responseAttachment,
    client.parses args.rpcId args.payload⟩

theorem returnRPCResponseFrame_eq (hlen : 20 + args.payload.length + args.responseAttachment.length < 2 ^ 32) :
    returnRPCResponseFrame args =
      word (20 + args.payload.length + args.responseAttachment.length) ++ (word MSG_NORMAL_RESPONSE ++
        (word args.rpcId ++ (word args.errorCode ++ (word args.responseAttachment.length ++
          (args.payload ++ args.responseAttachment))))) := by
  have hatt : args.responseAttachment.length % 2 ^ 32 = args.responseAttachment.length := Nat.mod_eq_of_lt (by omega)
  have hpay : args.payload.length % 2 ^ 32 = args.payload.length := Nat.mod_eq_of_lt (by omega)
  simp only [returnRPCResponseFrame, hatt, hpay, Nat.mod_eq_of_lt hlen, append_attachment, append_assoc]

theorem sendErrorResponseFrame_eq (rpcId errorCode : Nat) :
    sendErrorResponseFrame rpcId errorCode = returnRPCResponseFrame ⟨rpcId, errorCode, none, []⟩ := by
  rw [returnRPCResponseFrame_eq (by simp [CallBackArgs.payload]), sendErrorResponseFrame]
  simp only [append_assoc]
  rfl

theorem decodeResponse_returnRPCResponse (hrpc : args.rpcId < 2 ^ 32) (hcode : args.errorCode < 2 ^ 32)
    (hlen : 20 + args.payload.length + args.responseAttachment.length < 2 ^ 32) :
    decodeResponse client (returnRPCResponseFrame args) = .respond (args.decoded client) := by
  rw [returnRPCResponseFrame_eq hlen]
  generalize hb : word (20 + args.payload.length + args.responseAttachment.length) ++ (word MSG_NORMAL_RESPONSE ++
    (word args.rpcId ++ (word args.errorCode ++ (word args.responseAttachment.length ++
      (args.payload ++ args.responseAttachment))))) = b
  have htype : msgType b = MSG_NORMAL_RESPONSE := by
    rw [← hb, msgType, wordAt_word _ _ 0]
    exact wordAt_word_zero (by decide) _
  have hid : wordAt b 8 = args.rpcId := by
    rw [← hb, wordAt_word _ _ 4, wordAt_word _ _ 0]
    exact wordAt_word_zero hrpc _
  have hcode : wordAt b 12 = args.errorCode := by
    rw [← hb, wordAt_word _ _ 8, wordAt_word _ _ 4, wordAt_word _ _ 0]
    exact wordAt_word_zero hcode _
  have hsize : wordAt b 16 = args.responseAttachment.length := by
    rw [← hb, wordAt_word _ _ 12, wordAt_word _ _ 8, wordAt_word _ _ 4, wordAt_word _ _ 0]
    exact wordAt_word_zero (by omega) _
  have hbody : b.drop 20 = args.payload ++ args.responseAttachment := by
    rw [← hb, drop_word _ _ 16, drop_word _ _ 12, drop_word _ _ 8, drop_word _ _ 4, drop_word _ _ 0, drop_zero]
  have hpayload : (args.payload ++ args.responseAttachment).take
      ((args.payload ++ args.responseAttachment).length - args.responseAttachment.length) = args.payload := by
    rw [length_append, Nat.add_sub_cancel, take_left]
  rw [decodeResponse, decodeBranch, htype, if_neg (by decide), if_neg (by decide)]
  simp only [decodeNormalResponse, hid, hcode, hsize, hbody, hpayload, CallBackArgs.decoded]

/-- What a call learns from a response. -/
theorem decoded_apply (hparse : args.errorCode = ERR_SUCCESS → client.parses args.rpcId args.payload) :
    (args.decoded client).apply .initial =
      if args.errorCode = ERR_SUCCESS then ⟨0, false, ERR_SUCCESS, some args.payload, args.responseAttachment⟩
      else ⟨0, false, args.errorCode, none, []⟩ := by
  have hfits : ¬ (args.decoded client).body.length < (args.decoded client).attachmentSize := by
    show ¬ (args.payload ++ args.responseAttachment).length < args.responseAttachment.length
    rw [length_append]
    omega
  have hpayload : (args.decoded client).body.length - (args.decoded client).attachmentSize = args.payload.length := by
    show (args.payload ++ args.responseAttachment).length - args.responseAttachment.length = args.payload.length
    rw [length_append, Nat.add_sub_cancel]
  have htake : (args.decoded client).body.take args.payload.length = args.payload := take_left
  have hdrop : (args.decoded client).body.drop args.payload.length = args.responseAttachment := drop_left
  rw [Response.apply, if_neg hfits, hpayload]
  simp only [htake, hdrop]
  by_cases hcode : args.errorCode = ERR_SUCCESS
  · have hok : ¬ (args.decoded client).errorCode ≠ ERR_SUCCESS := not_not.mpr hcode
    have hparses : (args.decoded client).parses = true := hparse hcode
    rw [if_neg hok, if_pos hparses, if_pos hcode]
    by_cases hatt : 0 < (args.decoded client).attachmentSize
    · rw [if_pos hatt]
      rfl
    · have hnil : args.responseAttachment = [] := eq_nil_of_length_eq_zero (Nat.eq_zero_of_not_pos hatt)
      rw [if_neg hatt, hnil]
      rfl
  · have hfail : (args.decoded client).errorCode ≠ ERR_SUCCESS := hcode
    rw [if_pos hfail, if_neg hcode]
    rfl

theorem requestFields_inside (htype : msgType f.content = MSG_NORMAL) (h : f.Inside 0 16) :
    ∀ o ∈ requestFields f.content, f.Inside o 4 := by
  rw [requestFields, branchFields, htype, if_neg (by decide), if_neg (by decide)]
  simp only [forall_mem_cons]
  exact ⟨h.mono (by omega) (by omega) (by omega), h.mono (by omega) (by omega) (by omega),
    h.mono (by omega) (by omega) (by omega), h.mono (by omega) (by omega) (by omega), forall_mem_nil _⟩

theorem responseFields_inside (htype : msgType f.content = MSG_NORMAL_RESPONSE) (h : f.Inside 0 20) :
    ∀ o ∈ responseFields f.content, f.Inside o 4 := by
  rw [responseFields, branchFields, htype, if_neg (by decide), if_neg (by decide)]
  simp only [forall_mem_cons]
  exact ⟨h.mono (by omega) (by omega) (by omega), h.mono (by omega) (by omega) (by omega),
    h.mono (by omega) (by omega) (by omega), h.mono (by omega) (by omega) (by omega), forall_mem_nil _⟩

theorem returnRPCResponse_carried (hrpc : args.rpcId < 2 ^ 32) (hcode : args.errorCode < 2 ^ 32)
    (hlen : 20 + args.payload.length + args.responseAttachment.length < 2 ^ 32) :
    Carries (returnRPCResponseFrame args) (onProcessResponse client) 20 (.respond (args.decoded client)) := by
  have hframe := returnRPCResponseFrame_eq hlen
  have hlength : (returnRPCResponseFrame args).length =
      20 + args.payload.length + args.responseAttachment.length := by
    rw [hframe]
    simp only [length_append, word_length]
    omega
  refine Carries.intro ?_ ?_ ?_
  · rw [hlength, kFrameHeaderBytes]
    omega
  · rw [hlength, hframe]
    exact totalLen_word hlen _
  · intro f hf hinside
    have htype : msgType f.content = MSG_NORMAL_RESPONSE := by
      rw [hf, hframe, msgType, wordAt_word _ _ 0]
      exact wordAt_word_zero (by decide) _
    rw [(onProcessResponse_decodes f client (responseFields_inside htype hinside)).action, hf,
      decodeResponse_returnRPCResponse hrpc hcode hlen]

/-- Frames round-trip. The numbers in the call are the lengths `OnProcessRequest` computes. -/
theorem frames_round_trip {server : Server} {client : Client} {serialize : MetaDataOfRequest → Bytes}
    {rpcId : Nat} {serviceName methodName : String} {payload attachment metaData : Bytes} {parses : Bytes → Bool}
    {args : CallBackArgs} {errorCode : Nat}
    (hserving : (!server.owner || server.failed) = false) (hrpc : rpcId < 2 ^ 32)
    (hmeta : serialize ⟨rpcId, serviceName, methodName, attachment.length⟩ = metaData)
    (hparse : server.parseMeta metaData = some ⟨rpcId, serviceName, methodName, attachment.length⟩)
    (hfind : server.find serviceName methodName = .found parses) (hpayload : parses payload = true)
    (hlen : 16 + metaData.length + payload.length + attachment.length < 2 ^ 32)
    (hargs : args.rpcId < 2 ^ 32) (hcode : args.errorCode < 2 ^ 32)
    (hresponse : args.errorCode = ERR_SUCCESS → client.parses args.rpcId args.payload = true)
    (hlen' : 20 + args.payload.length + args.responseAttachment.length < 2 ^ 32) (herror : errorCode < 2 ^ 32) :
    Carries (callMethodFrame serialize rpcId serviceName methodName payload attachment) (onProcessRequest server) 16
      (.callMethod ⟨rpcId, metaData.length, 16 + metaData.length, payload.length, metaData,
        ⟨rpcId, serviceName, methodName, attachment.length⟩, payload, attachment⟩) ∧
    Carries (returnRPCResponseFrame args) (onProcessResponse client) 20 (.respond (args.decoded client)) ∧
    (args.decoded client).apply .initial =
      (if args.errorCode = ERR_SUCCESS then ⟨0, false, ERR_SUCCESS, some args.payload, args.responseAttachment⟩
      else ⟨0, false, args.errorCode, none, []⟩) ∧
    Carries (sendErrorResponseFrame rpcId errorCode) (onProcessResponse client) 20
      (.respond ⟨rpcId, errorCode, 0, [], client.parses rpcId []⟩) := by
  have hframe : callMethodFrame serialize rpcId serviceName methodName payload attachment = _ :=
    callMethodFrame_eq hmeta hlen
  have hlength : (callMethodFrame serialize rpcId serviceName methodName payload attachment).length =
      16 + metaData.length + payload.length + attachment.length := by
    rw [hframe]
    simp only [List.length_append, word_length]
    omega
  refine ⟨Carries.intro ?_ ?_ ?_, returnRPCResponse_carried hargs hcode hlen', decoded_apply hresponse, ?_⟩
  · rw [hlength, kFrameHeaderBytes]
    omega
  · rw [hlength, hframe]
    exact totalLen_word hlen _
  · intro f hf hinside
    have htype : msgType f.content = MSG_NORMAL := by
      rw [hf, hframe, msgType, wordAt_word _ _ 0]
      exact wordAt_word_zero (by decide) _
    rw [(onProcessRequest_decodes f server hserving (requestFields_inside htype hinside)).action, hf, hframe,
      decodeRequest_callMethod hrpc hparse hfind hpayload hlen]
  · rw [sendErrorResponseFrame_eq]
    exact returnRPCResponse_carried hrpc herror (by simp [CallBackArgs.payload])

def echoMeta : MetaDataOfRequest := ⟨7, "Echo", "Call", 1⟩

/-- Serves one method and has memory for every NOTIFY. -/
def echoServer : Server where
  owner := true
  failed := false
  endpoint := ⟨fun _ => some ⟨5, 4096⟩, fun _ => true⟩
  parseMeta := fun _ => some echoMeta
  find := fun _ _ => .found fun _ => true

def echoClient : Client where
  endpoint := echoServer.endpoint
  parses := fun _ _ => true

theorem echo_round_trip :
    Carries (callMethodFrame (fun _ => [1, 2, 3]) 7 "Echo" "Call" [4, 5] [6]) (onProcessRequest echoServer) 16
      (.callMethod ⟨7, 3, 19, 2, [1, 2, 3], echoMeta, [4, 5], [6]⟩) ∧
    Carries (returnRPCResponseFrame ⟨7, ERR_SUCCESS, some [4, 5], [6]⟩) (onProcessResponse echoClient) 20
      (.respond ⟨7, ERR_SUCCESS, 1, [4, 5, 6], true⟩) ∧
    Response.apply ⟨7, ERR_SUCCESS, 1, [4, 5, 6], true⟩ .initial = ⟨0, false, ERR_SUCCESS, some [4, 5], [6]⟩ ∧
    Carries (sendErrorResponseFrame 7 ERR_BAD_REQUEST) (onProcessResponse echoClient) 20
      (.respond ⟨7, ERR_BAD_REQUEST, 0, [], true⟩) :=
  frames_round_trip rfl (by decide) rfl rfl rfl rfl (by decide) (by decide) (by decide) (fun _ => rfl) (by decide)
    (by decide)

/-! Frames in pieces. -/

/-- The handler reads its fixed fields as it would from the same bytes in one reference, and
    reads nothing outside the frame's references. -/
def ReadsAsWhole (handler : Cursor UInt8 Action) (f : IOBuf) : Prop :=
  (handler f).Clean ∧ ∀ r : Segment UInt8, r.items = f.content → (handler f).reads = (handler [r]).reads

theorem content_single (h : r.items = b) : Segments.content [r] = b := by
  rw [Segments.content, Segments.content, append_nil, h]

/-- What is inside a reference of a frame in pieces is inside the one reference of the whole. -/
theorem inside_whole (hr : r.items = f.content) {o : Nat} (h : f.Inside o 4) : Segments.Inside [r] o 4 := by
  rw [Segments.inside_single (by decide), Segment.length, hr]
  exact h.le

theorem request_reads_whole (hr : r.items = f.content) (server : Server)
    (h : ∀ o ∈ requestFields f.content, f.Inside o 4) :
    (onProcessRequest server f).reads = (onProcessRequest server [r]).reads := by
  cases hserving : !server.owner || server.failed with
  | true => rw [onProcessRequest_idle f server hserving, onProcessRequest_idle [r] server hserving]
  | false =>
    have hwhole : ∀ o ∈ requestFields (Segments.content [r]), Segments.Inside [r] o 4 := by
      rw [content_single hr]
      exact fun o ho => inside_whole hr (h o ho)
    rw [(onProcessRequest_decodes f server hserving h).reads,
      (onProcessRequest_decodes [r] server hserving hwhole).reads, content_single hr]

theorem response_reads_whole (hr : r.items = f.content) (client : Client)
    (h : ∀ o ∈ responseFields f.content, f.Inside o 4) :
    (onProcessResponse client f).reads = (onProcessResponse client [r]).reads := by
  have hwhole : ∀ o ∈ responseFields (Segments.content [r]), Segments.Inside [r] o 4 := by
    rw [content_single hr]
    exact fun o ho => inside_whole hr (h o ho)
  rw [(onProcessResponse_decodes f client h).reads, (onProcessResponse_decodes [r] client hwhole).reads,
    content_single hr]

/-- The request handlers of all servers stay inside the references if the fields do. -/
theorem clean_of_inside (h : ∀ o ∈ requestFields f.content, f.Inside o 4) (server : Server) :
    (onProcessRequest server f).Clean := by
  cases hserving : !server.owner || server.failed with
  | true =>
    rw [onProcessRequest_idle f server hserving]
    exact ⟨rfl, forall_mem_nil _⟩
  | false => exact (clean_onProcessRequest f server hserving).mpr h

/-- The way a frame lies in memory makes no difference exactly when each of its fixed fields
    is inside one reference. -/
theorem segmentation_irrelevant (f : IOBuf) :
    ((∀ server, ReadsAsWhole (onProcessRequest server) f) ↔ ∀ o ∈ requestFields f.content, f.Inside o 4) ∧
    ((∀ client, ReadsAsWhole (onProcessResponse client) f) ↔ ∀ o ∈ responseFields f.content, f.Inside o 4) := by
  refine ⟨⟨fun h => ?_, fun h server => ?_⟩, ⟨fun h => ?_, fun h client => ?_⟩⟩
  · exact (clean_onProcessRequest f echoServer rfl).mp (h echoServer).1
  · exact ⟨clean_of_inside h server, fun r hr => request_reads_whole hr server h⟩
  · exact (clean_onProcessResponse f echoClient).mp (h echoClient).1
  · exact ⟨(clean_onProcessResponse f client).mpr h, fun r hr => response_reads_whole hr client h⟩

/-- A NOTIFY frame for three megabytes, of which the first SEND brought fourteen bytes. -/
def splitNotify : IOBuf :=
  [⟨[0, 0, 0, 16, 0, 0, 0, 1, 0, 0, 0, 7, 0, 48], [255, 255], by decide⟩, ⟨[0, 0], [], by decide⟩]

def wholeNotify : Segment UInt8 := ⟨[0, 0, 0, 16, 0, 0, 0, 1, 0, 0, 0, 7, 0, 48, 0, 0], [], by decide⟩

/-- Both handlers read the length with two bytes that are not the frame's. -/
theorem splitNotify_misread :
    cutInputMessage splitNotify = .frame splitNotify [] ∧ wholeNotify.items = splitNotify.content ∧
    (⟨[0, 48, 255, 255], false⟩ ∈ (onProcessRequest echoServer splitNotify).reads ∧
      (onProcessRequest echoServer splitNotify).reads ≠ (onProcessRequest echoServer [wholeNotify]).reads) ∧
    ⟨[0, 48, 255, 255], false⟩ ∈ (onProcessResponse echoClient splitNotify).reads ∧
      (onProcessResponse echoClient splitNotify).reads ≠ (onProcessResponse echoClient [wholeNotify]).reads :=
  ⟨cutInputMessage_self (by decide) (by decide), rfl, by decide +kernel, by decide +kernel⟩

/-! Lengths a peer chooses. -/

/-- The service is called with what the frame consists of: header, meta data, payload and
    attachment one after the other, and every computed length is the length of its part. -/
structure Call.Consistent (frame : Bytes) (c : Call) : Prop where
  metaLen : c.metaBuf.length = c.metaLen
  headerSize : c.headerSize = 16 + c.metaLen
  payloadLen : c.payload.length = c.payloadLen
  attachment : c.attachment.length = c.metaData.attachmentSize
  total : 16 + c.metaLen + c.payload.length + c.metaData.attachmentSize = wordAt frame 0
  slices : frame = frame.take 16 ++ (c.metaBuf ++ (c.payload ++ c.attachment))

def Action.Guarded (frame : Bytes) : Action → Prop
  | .callMethod c => c.Consistent frame
  | _ => True

/-- The handler stays inside the frame, and if it calls a service, then with consistent arguments. -/
def GuardsService (server : Server) (f : IOBuf) : Prop :=
  (onProcessRequest server f).Clean ∧
    ∀ a, (onProcessRequest server f).result.map Prod.fst = some a → a.Guarded f.content

theorem wordAt_lt (b : Bytes) (o : Nat) : wordAt b o < 2 ^ 32 := htonl_lt _

theorem notify_guarded (ep : Endpoint) (rpcId len : Nat) (b : Bytes) : (ep.notify rpcId len).Guarded b := by
  rw [Endpoint.notify]
  split <;> trivial

theorem authority_guarded (ep : Endpoint) (rpcId rkey hi lo : Nat) (b : Bytes) :
    (ep.authority rpcId rkey hi lo).Guarded b := by
  rw [Endpoint.authority]
  split <;> trivial

/-- Three consecutive parts that exhaust the frame after its header. -/
theorem slices_eq (b : Bytes) (m p : Nat) :
    b = b.take 16 ++ ((b.drop 16).take m ++ ((b.drop (16 + m)).take p ++ b.drop (16 + m + p))) := by
  rw [← drop_drop (i := p), take_append_drop, ← drop_drop (i := m), take_append_drop,
    take_append_drop]

theorem call_consistent {m p a : Nat} (metaData : MetaDataOfRequest) (ha : metaData.attachmentSize = a)
    (htotal : wordAt b 0 = b.length) (hlen : 16 + m + p + a = b.length) :
    Call.Consistent b ⟨wordAt b 8, m, 16 + m, p, (b.drop 16).take m, metaData, (b.drop (16 + m)).take p,
      if 0 < a then b.drop (16 + m + p) else []⟩ := by
  have hatt : (if 0 < a then b.drop (16 + m + p) else []) = b.drop (16 + m + p) := by
    split
    · rfl
    · exact (drop_eq_nil_iff.mpr (by omega)).symm
  have hpayload : ((b.drop (16 + m)).take p).length = p := by
    rw [length_take, length_drop]
    omega
  refine ⟨?_, rfl, hpayload, ?_, ?_, ?_⟩
  · show ((b.drop 16).take m).length = m
    rw [length_take, length_drop]
    omega
  · rw [hatt, length_drop, ha]
    omega
  · rw [hpayload, ha, htotal, hlen]
  · rw [hatt]
    exact slices_eq b m p

/-- The check of `OnProcessRequest` does its work if `16 + meta_len` does not wrap. -/
theorem decodeNormal_guarded (server : Server) (htotal : wordAt b 0 = b.length) (hwrap : 16 + wordAt b 12 < 2 ^ 32) :
    (decodeNormal server b).Guarded b := by
  rw [decodeNormal]
  cases server.parseMeta ((b.drop 16).take (wordAt b 12)) with
  | none => trivial
  | some metaData =>
    simp only [Nat.mod_eq_of_lt hwrap]
    split
    · trivial
    case isFalse hfits =>
      cases server.find metaData.serviceName metaData.methodName with
      | unknownService => trivial
      | unknownMethod => trivial
      | found parses =>
        simp only
        split
        · exact call_consistent metaData rfl htotal (by omega)
        · trivial

theorem decodeRequest_guarded (server : Server) (htotal : wordAt b 0 = b.length)
    (hwrap : msgType b = MSG_NOTIFY ∨ msgType b = MSG_AUTHORITY ∨ 16 + wordAt b 12 < 2 ^ 32) :
    (decodeRequest server b).Guarded b := by
  rw [decodeRequest, decodeBranch]
  split
  · exact notify_guarded _ _ _ _
  case isFalse hnotify =>
    split
    · exact authority_guarded _ _ _ _ _ _
    case isFalse hauthority =>
      exact decodeNormal_guarded server htotal ((hwrap.resolve_left hnotify).resolve_left hauthority)

/-- A server that takes whatever meta data it gets for a call without attachment. -/
def credulousServer : Server := { echoServer with parseMeta := fun _ => some ⟨7, "Echo", "Call", 0⟩ }

/-- With a `meta_len` that wraps the check passes, and the computed header is smaller than
    the real one. -/
theorem decodeNormal_wraps (h16 : 16 ≤ wordAt b 0) (hwrap : ¬ 16 + wordAt b 12 < 2 ^ 32) :
    ¬ (decodeNormal credulousServer b).Guarded b := by
  have hlt := wordAt_lt b 12
  have hheader : (16 + wordAt b 12) % 2 ^ 32 < 16 := by omega
  have hfits : ¬ (wordAt b 0 < (16 + wordAt b 12) % 2 ^ 32 ∨ wordAt b 0 - (16 + wordAt b 12) % 2 ^ 32 < 0) := by
    omega
  intro hguarded
  simp only [decodeNormal, credulousServer, echoServer, if_neg hfits, if_true] at hguarded
  have := hguarded.headerSize
  simp only at this
  omega

theorem requests_guarded {readBuf f rest : IOBuf} (h : cutInputMessage readBuf = .frame f rest) :
    (∀ server, GuardsService server f) ↔ (∀ o ∈ requestFields f.content, f.Inside o 4) ∧
      (msgType f.content = MSG_NOTIFY ∨ msgType f.content = MSG_AUTHORITY ∨ 16 + wordAt f.content 12 < 2 ^ 32) := by
  obtain ⟨_, htotal⟩ := cutInputMessage_accepted h
  constructor
  · intro hall
    have hinside := (clean_onProcessRequest f echoServer rfl).mp (hall echoServer).1
    refine ⟨hinside, ?_⟩
    by_contra hno
    obtain ⟨hnotify, hauthority, hwrap⟩ := by simpa only [not_or] using hno
    have h16 : 16 ≤ wordAt f.content 0 := by
      have h12 : 12 ∈ requestFields f.content := by
        rw [requestFields, branchFields, if_neg hnotify, if_neg hauthority]
        decide
      rw [htotal]
      exact (hinside 12 h12).le
    have hguarded := (hall credulousServer).2 _ (onProcessRequest_decodes f credulousServer rfl hinside).action
    rw [decodeRequest, decodeBranch, if_neg hnotify, if_neg hauthority] at hguarded
    exact decodeNormal_wraps h16 hwrap hguarded
  · rintro ⟨hinside, hwrap⟩ server
    refine ⟨clean_of_inside hinside server, ?_⟩
    intro a ha
    cases hserving : !server.owner || server.failed with
    | true =>
      rw [onProcessRequest_idle f server hserving] at ha
      cases ha
      trivial
    | false =>
      rw [(onProcessRequest_decodes f server hserving hinside).action] at ha
      cases ha
      exact decodeRequest_guarded server htotal hwrap

def smallRequest : IOBuf := [⟨[0, 0, 0, 20, 0, 0, 0, 0, 0, 0, 0, 7, 0, 0, 0, 2, 1, 2, 3, 4], [], by decide⟩]

theorem smallRequest_guarded : cutInputMessage smallRequest = .frame smallRequest [] ∧
    ∀ server, GuardsService server smallRequest := by
  have hcut : cutInputMessage smallRequest = .frame smallRequest [] := cutInputMessage_self (by decide) (by decide)
  exact ⟨hcut, (requests_guarded hcut).mpr ⟨by decide, by decide⟩⟩

/-- `meta_len` is 2^32 - 16. -/
def wrappedRequest : IOBuf :=
  [⟨[0, 0, 0, 20, 0, 0, 0, 0, 0, 0, 0, 7, 255, 255, 255, 240, 1, 2, 3, 4], [], by decide⟩]

/-- The header counts as empty, the whole rest as meta data, and the service is called with a
    payload of 19 bytes and an attachment of one that are not there. -/
theorem wrappedRequest_accepted :
    cutInputMessage wrappedRequest = .frame wrappedRequest [] ∧
    ∃ c, (onProcessRequest echoServer wrappedRequest).result.map Prod.fst = some (.callMethod c) ∧
      c.headerSize = 0 ∧ c.payloadLen = 19 ∧ c.payload = [] ∧ c.metaData.attachmentSize = 1 ∧ c.attachment = [] ∧
      ¬ c.Consistent wrappedRequest.content := by
  refine ⟨cutInputMessage_self (by decide) (by decide), ?_⟩
  refine ⟨⟨7, 2 ^ 32 - 16, 0, 19, [1, 2, 3, 4], echoMeta, [], []⟩, by decide +kernel, rfl, rfl, rfl, rfl, rfl, ?_⟩
  intro h
  exact absurd h.headerSize (by decide)

/-! Short frames. -/

/-- The size of the fixed part of a frame that `OnProcessRequest` gets. -/
def requestSize (b : Bytes) : Nat :=
  if msgType b = MSG_NOTIFY then kNotifyFrameBytes else if msgType b = MSG_AUTHORITY then kAuthFrameBytes else 16

def responseSize (b : Bytes) : Nat :=
  if msgType b = MSG_NOTIFY then kNotifyFrameBytes else if msgType b = MSG_AUTHORITY then kAuthFrameBytes else 20

def Action.rejects : Action → Bool
  | .reject | .sendErrorResponse _ _ => true
  | _ => false

/-- All reads are inside the frame, and a frame below `size` is rejected. -/
def HandlesShort (handler : Cursor UInt8 Action) (size : Nat) (f : IOBuf) : Prop :=
  (handler f).Clean ∧ (f.content.length < size → ∃ a, (handler f).result.map Prod.fst = some a ∧ a.rejects = true)

/-- The frame has its fixed part, and no field of it lies in two references. -/
def HasFixedPart (f : IOBuf) (size : Nat) (fields : List Nat) : Prop :=
  size ≤ f.content.length ∧ ∀ o ∈ fields, o + 4 ≤ f.content.length → f.Inside o 4

theorem hasFixedPart_iff {size : Nat} (hfields : ∀ o ∈ fields, o + 4 ≤ size) (hlast : ∃ o ∈ fields, o + 4 = size) :
    HasFixedPart f size fields ↔ ∀ o ∈ fields, f.Inside o 4 := by
  constructor
  · rintro ⟨hlen, hinside⟩ o ho
    have := hfields o ho
    exact hinside o ho (by omega)
  · intro hinside
    obtain ⟨o, ho, hsize⟩ := hlast
    refine ⟨?_, fun o ho _ => hinside o ho⟩
    rw [← hsize]
    exact (hinside o ho).le

theorem requestFields_size (f : IOBuf) :
    HasFixedPart f (requestSize f.content) (requestFields f.content) ↔ ∀ o ∈ requestFields f.content, f.Inside o 4 := by
  apply hasFixedPart_iff
  · rw [requestFields, branchFields, requestSize]
    split_ifs <;> decide
  · rw [requestFields, branchFields, requestSize]
    split_ifs <;> decide

theorem responseFields_size (f : IOBuf) : HasFixedPart f (responseSize f.content) (responseFields f.content) ↔
      ∀ o ∈ responseFields f.content, f.Inside o 4 := by
  apply hasFixedPart_iff
  · rw [responseFields, branchFields, responseSize]
    split_ifs <;> decide
  · rw [responseFields, branchFields, responseSize]
    split_ifs <;> decide

/-- The handlers read inside the frame and reject what is too short exactly when there is
    nothing to reject. -/
theorem short_frames_handled (f : IOBuf) :
    ((∀ server, HandlesShort (onProcessRequest server) (requestSize f.content) f) ↔
      HasFixedPart f (requestSize f.content) (requestFields f.content)) ∧
    ((∀ client, HandlesShort (onProcessResponse client) (responseSize f.content) f) ↔
      HasFixedPart f (responseSize f.content) (responseFields f.content)) := by
  refine ⟨⟨fun h => ?_, fun h server => ?_⟩, ⟨fun h => ?_, fun h client => ?_⟩⟩
  · rw [requestFields_size]
    exact (clean_onProcessRequest f echoServer rfl).mp (h echoServer).1
  · refine ⟨clean_of_inside ((requestFields_size f).mp h) server, fun hshort => ?_⟩
    exact absurd h.1 (Nat.not_le_of_lt hshort)
  · rw [responseFields_size]
    exact (clean_onProcessResponse f echoClient).mp (h echoClient).1
  · refine ⟨(clean_onProcessResponse f client).mpr ((responseFields_size f).mp h), fun hshort => ?_⟩
    exact absurd h.1 (Nat.not_le_of_lt hshort)

/-- A NOTIFY frame that ends before its length, and one that ends inside it. -/
def bareNotify : IOBuf := [⟨[0, 0, 0, 12, 0, 0, 0, 1, 0, 0, 0, 7], [], by decide⟩]

def shortNotify : IOBuf := [⟨[0, 0, 0, 13, 0, 0, 0, 1, 0, 0, 0, 7, 0], [48, 0, 0], by decide⟩]

/-- Both handlers read the length of the first through a null pointer. For the second they
    read it behind the frame, and a receive is posted. -/
theorem shortNotify_accepted :
    cutInputMessage bareNotify = .frame bareNotify [] ∧
    (onProcessRequest echoServer bareNotify).result.isNone = true ∧
    (onProcessResponse echoClient bareNotify).result.isNone = true ∧
    cutInputMessage shortNotify = .frame shortNotify [] ∧
    (onProcessRequest echoServer shortNotify).result.map Prod.fst =
      some (.postLargeWriteRecv ⟨5, 4096⟩ (authFrame 7 ⟨5, 4096⟩)) ∧
    ⟨[0, 48, 0, 0], false⟩ ∈ (onProcessRequest echoServer shortNotify).reads ∧
    (onProcessResponse echoClient shortNotify).result.map Prod.fst =
      some (.postLargeWriteRecv ⟨5, 4096⟩ (authFrame 7 ⟨5, 4096⟩)) ∧
    ⟨[0, 48, 0, 0], false⟩ ∈ (onProcessResponse echoClient shortNotify).reads :=
  ⟨cutInputMessage_self (by decide) (by decide), by decide +kernel, by decide +kernel,
    cutInputMessage_self (by decide) (by decide), by decide +kernel, by decide +kernel, by decide +kernel,
    by decide +kernel⟩

end LightRpc.Frames
