import ElioP2P.P2P.Proofs.Delivery
import ElioP2P.P2P.Proofs.Streams

/-!
# An upload and the chunk server that receives it

`upload_chunk` at one end of a connection and `handle_chunk_request` at the
other.  The connection may break at any point: reads and writes may fail at any
time and what was written may never arrive.  Still the uploader only believes in
an upload that the consumer at the other end has accepted, and what is too long
or empty never reaches the consumer.
-/

namespace ElioP2P.P2P

open ElioP2P.Library ElioP2P.Library.Coroutine ElioP2P.Proxy

/-! ## The setting -/

/-- The consumer, with its calls written down. -/
def recorded (consume : Bytes → Bytes → Node → Option (Bool × Node)) (chunkId data : Bytes) :
    Proc Bool :=
  Coroutine.atomically (S := nodeSignature) fun s : Node => do
    let (accepted, s') ← consume chunkId data s
    some (accepted, { s' with consumed := s.consumed ++ [⟨chunkId, data, accepted⟩] })

def uploader : Surroundings nodeSignature where
  finds _ _ := True
  answers _ _ := True

/-- Anything may happen around the chunk server, except that the calls written
down are those of this connection. -/
def receiver : Surroundings nodeSignature where
  finds s s' := s'.consumed = s.consumed
  answers _ _ := True

def uploadExchange (H : Sha256) (chunkId data : Bytes) (peer : PeerNode)
    (provider : Bytes → Proc (Option Bytes))
    (consume : Bytes → Bytes → Node → Option (Bool × Node)) (s s' : Node) :
    Connection nodeSignature Bool Unit where
  client := .new s none (uploadChunk H chunkId data peer)
  server := .new s' none (handleChunkRequest provider (recorded consume) H)

def Refused (chunkId data : Bytes) : Prop :=
  data = [] ∨ maxUploadBytes < data.length ∨ 256 < chunkId.length

/-! ## What goes over the wire -/

section Wire

variable (H : Sha256) (chunkId data : Bytes)

def uploadHeader : ChunkMessageHeader :=
  hashedHeader H .upload (UInt32.ofNat chunkId.length) (UInt32.ofNat data.length)
    ChunkMessageHeader.flagLastPart data

def uploadBytes : Bytes := headerBytes (uploadHeader H chunkId data) ++ (chunkId ++ data)

theorem length_uploadBytes :
    (uploadBytes H chunkId data).length =
      ChunkMessageHeader.size + (chunkId.length + data.length) := by
  rw [uploadBytes, List.length_append, List.length_append, length_headerBytes]

def BeginsAck (bytes : Bytes) : Prop :=
  ∃ header rest, bytes = headerBytes header ++ rest ∧
    header.messageType = ChunkMessageType.ack.toUInt32

end Wire

/-! ## The uploader's end -/

section Client

variable (H : Sha256) (chunkId data : Bytes)

def uploaderEnd : Endpoint nodeSignature where
  toSurroundings := uploader
  input _ := True
  eof _ := True
  broken _ := True
  holds t _ := t.sent <+: uploadBytes H chunkId data
  reading t := t.sent = uploadBytes H chunkId data
  hangs := False

def EndsUpload (t : Traffic) (accepted : Bool) : Prop :=
  t.sent <+: uploadBytes H chunkId data ∧ (accepted = true → BeginsAck t.received)

def SendsUpload (t : Traffic) (ok : Bool) : Prop :=
  t.sent <+: uploadBytes H chunkId data ∧ t.received = [] ∧
    (ok = true → t.sent = uploadBytes H chunkId data)

variable {H chunkId data}

theorem paced_uploader : Paced (uploaderEnd H chunkId data) fun _ => True :=
  ⟨fun _ _ _ _ => trivial, fun _ _ _ _ => trivial, fun _ => trivial⟩

theorem obeys_uploadFailed {close : Bool} {t : Traffic} {s : Node}
    (ht : t.sent <+: uploadBytes H chunkId data) :
    (uploadFailed close).Obeys nodePort (uploaderEnd H chunkId data)
      (fun t accepted _ => EndsUpload H chunkId data t accepted) t s := by
  refine Obeys.bind (obeys_onTransfer ?_)
  cases close with
  | true => exact obeys_closeWith ht fun _ _ => ⟨ht, fun h => nomatch h⟩
  | false => exact ⟨ht, fun h => nomatch h⟩

theorem obeys_readUploadReply {t : Traffic} {s : Node} (hsent : t.sent = uploadBytes H chunkId data)
    (hreceived : t.received = []) :
    (readUploadReply H data).Obeys nodePort (uploaderEnd H chunkId data)
      (fun t accepted _ => EndsUpload H chunkId data t accepted) t s := by
  have hpaced : Paced (uploaderEnd H chunkId data) fun _ => True := paced_uploader
  have hholds : t.sent <+: uploadBytes H chunkId data := by rw [hsent]
  refine Obeys.bind (obeys_readHeader hpaced.stable trivial trivial
    (fun _ _ _ _ _ => ⟨hholds, hsent⟩) (fun header s _ _ => ?_)
    fun _ _ _ _ _ => obeys_uploadFailed hholds)
  -- The echoed id is read and not looked at, so it may be incomplete.
  have hdecided : ∀ (got : Bytes) (s : Node),
      (if header.magic ≠ chunkTransferMagic ∨
          header.messageType ≠ ChunkMessageType.ack.toUInt32 ∨ H.digest data ≠ header.hash then
          uploadFailed true
        else do
          streamClose
          onTransfer fun t => ((), { t with stats := { t.stats with
            totalBytesUploaded := t.stats.totalBytesUploaded + data.length } })
          pure true).Obeys nodePort (uploaderEnd H chunkId data)
        (fun t accepted _ => EndsUpload H chunkId data t accepted)
        ((t.gets (headerBytes header)).gets got) s := by
    intro got s
    split
    · exact obeys_uploadFailed hholds
    · rename_i hgood
      simp only [not_or, ne_eq, not_not] at hgood
      refine Obeys.bind (obeys_streamClose hholds fun s _ => ?_)
      refine Obeys.bind (obeys_onTransfer ⟨hholds, fun _ => ⟨header, got, ?_, hgood.2.1⟩⟩)
      simp [hreceived]
  exact Obeys.bind (Gets.obeys_readExact ⟨fun _ _ _ _ _ => ⟨hholds, hsent⟩,
    fun got s _ _ _ => hdecided got s, fun got s _ _ _ => hdecided got s⟩ hpaced.stable trivial
    trivial)

theorem writes_upload :
    Writes (uploaderEnd H chunkId data) (fun _ => True) {}
      (headerBytes (uploadHeader H chunkId data) ++ chunkId ++ data)
      fun t ok _ => SendsUpload H chunkId data t ok := by
  have hbytes : headerBytes (uploadHeader H chunkId data) ++ chunkId ++ data =
      uploadBytes H chunkId data := List.append_assoc _ _ _
  rw [hbytes]
  exact ⟨fun _ rest _ hdone _ _ => ⟨rest, hdone⟩, fun _ _ => ⟨List.prefix_rfl, rfl, fun _ => rfl⟩,
    fun _ rest _ hdone _ _ _ => ⟨⟨rest, hdone⟩, rfl, fun h => nomatch h⟩⟩

theorem obeys_uploadChunk {peer : PeerNode} {s : Node} :
    (uploadChunk H chunkId data peer).Obeys nodePort (uploaderEnd H chunkId data)
      (fun t accepted _ => EndsUpload H chunkId data t accepted) {} s := by
  have hpaced : Paced (uploaderEnd H chunkId data) fun _ => True := paced_uploader
  have hnone : ([] : Bytes) <+: uploadBytes H chunkId data := List.nil_prefix
  refine Obeys.bind (obeys_onTransfer ?_)
  split
  · exact ⟨hnone, fun h => nomatch h⟩
  refine Obeys.bind (obeys_onTransfer ?_)
  refine Obeys.bind (obeys_tcpConnect hnone ⟨true, trivial⟩ fun ok s _ _ => ?_)
  split
  · exact obeys_uploadFailed hnone
  refine Obeys.bind ((writes_upload.left (fun s _ hrest => ?_)
    fun t s hpost => ?_).obeys_writeMessage hpaced.stable trivial)
  · simp only [Bool.not_true, Bool.false_eq_true, if_false]
    refine Obeys.seq (hrest.obeys_sendSlices hpaced trivial (Nat.le_refl _)) ?_
    rintro t ok s ⟨hsent, hreceived, hall⟩
    split
    · exact obeys_uploadFailed hsent
    · rename_i hok
      exact obeys_readUploadReply (hall (by simpa using hok)) hreceived
  · simp only [Bool.not_false, if_true]
    exact obeys_uploadFailed hpost.1

end Client

/-! ## The chunk server's end -/

section Server

variable (H : Sha256) (chunkId data : Bytes) (earlier : List ConsumerCall)

/-- The consumer has been called at most once, with the chunk as it was
uploaded, and an acknowledgement is only sent if it has accepted. -/
structure Receives (t : Traffic) (s : Node) : Prop where
  called : s.consumed = earlier ∨
    ¬Refused chunkId data ∧ ∃ accepted, s.consumed = earlier ++ [⟨chunkId, data, accepted⟩]
  acked : BeginsAck t.sent → s.consumed = earlier ++ [⟨chunkId, data, true⟩]

def receiverEnd : Endpoint nodeSignature where
  toSurroundings := receiver
  input r := r <+: uploadBytes H chunkId data
  eof _ := True
  broken _ := True
  holds := Receives chunkId data earlier
  reading t := t.received.length < (uploadBytes H chunkId data).length
  hangs := ¬Refused chunkId data

variable {H chunkId data earlier}

theorem not_beginsAck_nil : ¬BeginsAck [] := by
  rintro ⟨header, rest, hbytes, -⟩
  have hlength := congrArg List.length hbytes
  rw [List.length_append, length_headerBytes, ChunkMessageHeader.size, List.length_nil] at hlength
  omega

theorem receives_of_silent {t : Traffic} {s : Node} (hsent : t.sent = [])
    (hs : s.consumed = earlier) : Receives chunkId data earlier t s where
  called := Or.inl hs
  acked hack := by
    rw [hsent] at hack
    exact absurd hack not_beginsAck_nil

theorem stable_consumed (calls : List ConsumerCall) :
    Stable (receiverEnd H chunkId data earlier) fun s => s.consumed = calls :=
  fun _ _ hs hfinds => Eq.trans hfinds hs

def uploadReply (H : Sha256) (header : ChunkMessageHeader) (data : Bytes) (accepted : Bool) :
    ChunkMessageHeader :=
  if accepted then hashedHeader H .ack header.chunkIdLength 0 0 data
  else emptyReply .error header.chunkIdLength

theorem writes_uploadReply {header : ChunkMessageHeader} {received : Bytes} {accepted : Bool}
    {calls : List ConsumerCall} {t : Traffic} (hsent : t.sent = [])
    (hcalled : calls = earlier ∨
      ¬Refused chunkId data ∧ ∃ accepted, calls = earlier ++ [⟨chunkId, data, accepted⟩])
    (haccepted : accepted = true → calls = earlier ++ [⟨chunkId, data, true⟩]) :
    Writes (receiverEnd H chunkId data earlier) (fun s => s.consumed = calls) t
      (headerBytes (uploadReply H header received accepted) ++ chunkId)
      fun t _ s => Receives chunkId data earlier t s := by
  have hreceives : ∀ (done rest : Bytes) (s : Node),
      done ++ rest = headerBytes (uploadReply H header received accepted) ++ chunkId →
        s.consumed = calls → Receives chunkId data earlier (t.sends done) s := by
    intro done rest s hdone hs
    refine ⟨hs ▸ hcalled, ?_⟩
    rintro ⟨header', rest', hbytes, htype⟩
    rw [Traffic.sends_sent, hsent, List.nil_append] at hbytes
    rw [hbytes, List.append_assoc] at hdone
    obtain ⟨rfl, -⟩ := headerBytes_leads ⟨[], (List.append_nil _).trans hdone⟩
    cases accepted with
    | true => exact hs.trans (haccepted rfl)
    | false => exact absurd htype (by simp [uploadReply, emptyReply, ChunkMessageType.toUInt32])
  exact ⟨fun done rest s hdone _ hs => hreceives done rest s hdone hs,
    fun s hs => hreceives _ [] s (List.append_nil _) hs,
    fun done rest s hdone _ _ hs => hreceives done rest s hdone hs⟩

theorem Receives.found {t : Traffic} {s s' : Node} (h : Receives chunkId data earlier t s)
    (hfinds : s'.consumed = s.consumed) : Receives chunkId data earlier t.shut s' := by
  refine ⟨?_, fun hack => ?_⟩
  · rw [hfinds]
    exact h.called
  · rw [hfinds]
    exact h.acked hack

theorem obeys_uploadReply {header : ChunkMessageHeader} {received : Bytes} {accepted : Bool}
    {t : Traffic} {s : Node} (hsent : t.sent = [])
    (hcalled : s.consumed = earlier ∨
      ¬Refused chunkId data ∧ ∃ accepted, s.consumed = earlier ++ [⟨chunkId, data, accepted⟩])
    (haccepted : accepted = true → s.consumed = earlier ++ [⟨chunkId, data, true⟩]) :
    (do
      let _ ← writeMessage (uploadReply H header received accepted) chunkId
      streamClose : Proc Unit).Obeys nodePort (receiverEnd H chunkId data earlier)
      (fun t _ s => Receives chunkId data earlier t s) t s := by
  refine ((writes_uploadReply hsent hcalled haccepted).obeys_writeMessage
    (stable_consumed s.consumed) rfl).seq fun t _ s h => ?_
  exact obeys_streamClose h fun s' hfinds => h.found hfinds

/-- What is handed to the consumer is what was uploaded, and only that. -/
theorem obeys_acceptUpload {consume : Bytes → Bytes → Node → Option (Bool × Node)} {got : Bytes}
    {t : Traffic} {s : Node} {post : Traffic → Bool → Node → Prop}
    (hcollision : ∀ d, H.digest d = H.digest data → d = data) (hs : s.consumed = earlier)
    (hgot : got = data → ¬Refused chunkId data)
    (hrejected : post t false s)
    (hcalled : got = data → ∀ accepted s',
      s'.consumed = earlier ++ [⟨chunkId, data, accepted⟩] → post t accepted s') :
    (acceptUpload (recorded consume) H (uploadHeader H chunkId data) chunkId got).Obeys nodePort
      (receiverEnd H chunkId data earlier) post t s := by
  unfold acceptUpload
  split
  · rename_i hdigest
    have hsame : got = data := hcollision got hdigest
    refine obeys_atomically (fun _ => hgot hsame) fun accepted s' hconsume => ?_
    simp only [Option.bind_eq_bind, Option.bind_eq_some_iff, Option.some.injEq,
      Prod.mk.injEq] at hconsume
    obtain ⟨⟨answer, s₁⟩, -, rfl, rfl⟩ := hconsume
    refine hcalled hsame answer _ ?_
    rw [hs, hsame]
  · exact hrejected

theorem toNat_uploadLength :
    (uploadHeader H chunkId data).dataLength.toNat = data.length % 2 ^ 32 :=
  UInt32.toNat_ofNat'

theorem obeys_receiveUpload {consume : Bytes → Bytes → Node → Option (Bool × Node)} {t : Traffic}
    {s : Node} (hcollision : ∀ d, H.digest d = H.digest data → d = data)
    (hid : chunkId.length ≤ 256) (hs : s.consumed = earlier) (hsent : t.sent = [])
    (hreceived : t.received = headerBytes (uploadHeader H chunkId data) ++ chunkId) :
    (receiveUpload (recorded consume) H (uploadHeader H chunkId data) chunkId).Obeys nodePort
      (receiverEnd H chunkId data earlier)
      (fun t _ s => Receives chunkId data earlier t s) t s := by
  unfold receiveUpload
  simp only [toNat_uploadLength]
  split
  · exact receives_of_silent hsent hs
  rename_i hlength
  have hmod : data.length % 2 ^ 32 ≤ data.length := Nat.mod_le _ _
  refine Obeys.bind (Gets.obeys_readExact ⟨fun got s hgot _ hs => ⟨receives_of_silent hsent hs, ?_⟩,
    fun got s hgot hin hs => ?_, fun got s hgot _ hs => ?_⟩ (stable_consumed earlier) hs ?_)
  · change (t.received ++ got).length < (uploadBytes H chunkId data).length
    rw [length_uploadBytes, List.length_append, hreceived, List.length_append, length_headerBytes]
    omega
  · simp only [hgot, ne_eq, not_true_eq_false, if_false]
    have hgood : got = data → ¬Refused chunkId data := by
      -- The length that was announced is the length of all the data.
      intro hsame hrefused
      rw [hsame] at hgot
      rw [← hgot] at hlength
      rcases hrefused with hnil | hlarge | hlong
      · exact hlength (Or.inl (by rw [hnil, List.length_nil]))
      · exact hlength (Or.inr hlarge)
      · omega
    refine Obeys.bind (obeys_acceptUpload hcollision hs hgood ?_ ?_)
    · exact obeys_uploadReply hsent (Or.inl hs) (fun h => absurd h Bool.false_ne_true)
    · intro hsame accepted s' hs'
      refine obeys_uploadReply hsent (Or.inr ⟨hgood hsame, accepted, hs'⟩) ?_
      rintro rfl
      exact hs'
  · have hne : got.length ≠ data.length % 2 ^ 32 := hgot.ne
    simp only [hne, ne_eq, not_false_eq_true, if_true]
    exact receives_of_silent hsent hs
  · change t.received <+: uploadBytes H chunkId data
    rw [hreceived, uploadBytes, ← List.append_assoc]
    exact List.prefix_append _ _

theorem obeys_receiver {provider : Bytes → Proc (Option Bytes)}
    {consume : Bytes → Bytes → Node → Option (Bool × Node)} {s : Node}
    (hcollision : ∀ d, H.digest d = H.digest data → d = data) (hid : chunkId.length < 2 ^ 32)
    (hs : s.consumed = earlier) :
    (handleChunkRequest provider (recorded consume) H).Obeys nodePort
      (receiverEnd H chunkId data earlier) (fun t _ s => Receives chunkId data earlier t s)
      {} s := by
  have hidLength : (uploadHeader H chunkId data).chunkIdLength.toNat = chunkId.length := by
    change (UInt32.ofNat chunkId.length).toNat = chunkId.length
    rw [UInt32.toNat_ofNat']
    exact Nat.mod_eq_of_lt hid
  have hwait : ∀ (got : Bytes) (s : Node),
      got.length < ChunkMessageHeader.size + chunkId.length → s.consumed = earlier →
        (receiverEnd H chunkId data earlier).holds (({} : Traffic).gets got) s ∧
          (receiverEnd H chunkId data earlier).reading (({} : Traffic).gets got) := by
    intro got s hgot hs
    refine ⟨receives_of_silent rfl hs, ?_⟩
    change got.length < (uploadBytes H chunkId data).length
    rw [length_uploadBytes]
    omega
  refine Obeys.bind (obeys_readHeader (stable_consumed earlier) hs List.nil_prefix
    (fun got s hgot _ hs => hwait got s (by omega) hs) (fun header s hin hs => ?_)
    fun got s _ _ hs => receives_of_silent rfl hs)
  change [] ++ headerBytes header <+: uploadBytes H chunkId data at hin
  rw [List.nil_append, ← List.append_nil (headerBytes header)] at hin
  obtain ⟨rfl, -⟩ := headerBytes_leads hin
  dsimp only
  split
  · exact receives_of_silent rfl hs
  rename_i hshort
  have hid' : chunkId.length ≤ 256 := by
    rw [not_or, UInt32.lt_iff_toNat_lt, hidLength] at hshort
    exact Nat.not_lt.mp hshort.2
  rw [hidLength]
  refine Obeys.bind (Gets.obeys_readExact ⟨fun got s hgot _ hs => ?_, fun got s hgot hin hs => ?_,
    fun got s hgot _ hs => ?_⟩ (stable_consumed earlier) hs (List.prefix_append _ _))
  · rw [Traffic.gets_gets]
    refine hwait _ s ?_ hs
    rw [List.length_append, length_headerBytes]
    omega
  · have hgotId : got = chunkId := eq_of_headerBytes_leads hin hgot
    subst hgotId
    have htype : (uploadHeader H got data).messageType = ChunkMessageType.upload.toUInt32 := rfl
    simp only [ne_eq, not_true_eq_false, if_false, htype, if_true]
    exact obeys_receiveUpload hcollision hid' hs rfl rfl
  · have hne : got.length ≠ chunkId.length := hgot.ne
    simp only [hne, ne_eq, not_false_eq_true, if_true]
    exact receives_of_silent rfl hs

end Server

/-! ## The exchange -/

section Exchange

variable {H : Sha256} {chunkId data : Bytes} {earlier : List ConsumerCall}

def Uploads (H : Sha256) (chunkId data : Bytes) (earlier : List ConsumerCall)
    (conn : Connection nodeSignature Bool Unit) : Prop :=
  conn.Agreed nodePort (uploaderEnd H chunkId data) (receiverEnd H chunkId data earlier)
    (fun t accepted _ => EndsUpload H chunkId data t accepted)
    fun t _ s => Receives chunkId data earlier t s

def UnbrokenUpload (conn : Connection nodeSignature Bool Unit) (turn : Turn nodeSignature) : Prop :=
  conn.Faithful nodePort uploader receiver turn ∧ conn.Unbroken nodePort turn

namespace Uploads

variable {conn conn' : Connection nodeSignature Bool Unit} {turn : Turn nodeSignature}

theorem client_admits (_ : Uploads H chunkId data earlier conn) {s : Node}
    {reply : (e : External) → e.Answer}
    (hfaithful : conn.client.Faithful nodePort uploader conn.server s reply) :
    ∀ e next, conn.client.rest = .await (.external e) next →
      (uploaderEnd H chunkId data).Admits nodePort conn.client.traffic e (reply e) :=
  Party.Faithful.admits hfaithful (fun _ _ => trivial) (fun _ _ _ _ _ _ => trivial)
    fun _ _ _ _ _ _ _ => trivial

theorem server_admits (h : Uploads H chunkId data earlier conn) {s : Node}
    {reply : (e : External) → e.Answer}
    (hfaithful : conn.server.Faithful nodePort receiver conn.client s reply) :
    ∀ e next, conn.server.rest = .await (.external e) next →
      (receiverEnd H chunkId data earlier).Admits nodePort conn.server.traffic e (reply e) := by
  have hsent : conn.client.traffic.sent <+: uploadBytes H chunkId data :=
    h.client.always (Q := fun t _ => t.sent <+: uploadBytes H chunkId data)
      (fun _ _ hholds => hholds) fun _ _ _ hends => hends.1
  exact Party.Faithful.admits hfaithful (fun _ hr => hr.trans hsent) (fun _ _ _ _ _ _ => trivial)
    fun _ _ _ _ _ _ _ => trivial

theorem step (h : Uploads H chunkId data earlier conn)
    (hfaithful : conn.Faithful nodePort uploader receiver turn)
    (hstep : conn.step nodePort turn = some conn') : Uploads H chunkId data earlier conn' := by
  refine Connection.Agreed.step h hfaithful ?_ ?_ hstep
  · rintro s reply rfl
    exact h.client_admits hfaithful
  · rintro s reply rfl
    exact h.server_admits hfaithful

theorem receives (h : Uploads H chunkId data earlier conn) :
    Receives chunkId data earlier conn.server.traffic conn.server.state :=
  h.server.always (Q := Receives chunkId data earlier) (fun _ _ hholds => hholds)
    fun _ _ _ hends => hends

/-- The uploader only believes what the server has acknowledged. -/
theorem accepted (h : Uploads H chunkId data earlier conn)
    (hresult : conn.client.result? = some true) :
    conn.server.state.consumed = earlier ++ [⟨chunkId, data, true⟩] := by
  obtain ⟨header, rest, hbytes, htype⟩ := (h.client.ends hresult).2 rfl
  obtain ⟨more, hmore⟩ := h.toClient
  refine h.receives.acked ⟨header, rest ++ more, ?_, htype⟩
  rw [← hmore, hbytes, List.append_assoc]

theorem not_called (h : Uploads H chunkId data earlier conn) (hrefused : Refused chunkId data) :
    conn.server.state.consumed = earlier := by
  rcases h.receives.called with hnone | ⟨hgood, -⟩
  · exact hnone
  · exact absurd hrefused hgood

/-- Until the upload has ended, one of the two ends can go on, unless the
consumer hangs. -/
theorem progress (h : Uploads H chunkId data earlier conn) (hrefused : Refused chunkId data)
    (hresult : conn.client.result? = none) :
    ∃ turn conn', UnbrokenUpload conn turn ∧ conn.step nodePort turn = some conn' := by
  have hfree : (uploaderEnd H chunkId data).reading conn.client.traffic →
      (receiverEnd H chunkId data earlier).reading conn.server.traffic →
        conn.server.traffic.received ≠ conn.client.traffic.sent := by
    intro hreading hreading' hall
    change conn.server.traffic.received.length < _ at hreading'
    rw [hall, hreading] at hreading'
    exact Nat.lt_irrefl _ hreading'
  obtain ⟨turn, conn', hfaithful, hunbroken, hstep⟩ := Connection.Agreed.progress h id
    (fun hhangs => hhangs hrefused) hresult (s := conn.client.state) trivial rfl hfree
    (fun _ hfaithful _ => h.client_admits hfaithful)
      (fun _ hfaithful _ => h.server_admits hfaithful)
    (answers [] none fun _ _ => none)
  exact ⟨turn, conn', ⟨hfaithful, hunbroken⟩, hstep⟩

theorem initial {peer : PeerNode} {provider : Bytes → Proc (Option Bytes)}
    {consume : Bytes → Bytes → Node → Option (Bool × Node)} {s s' : Node}
    (hcollision : ∀ d, H.digest d = H.digest data → d = data) (hid : chunkId.length < 2 ^ 32) :
    Uploads H chunkId data s'.consumed
      (uploadExchange H chunkId data peer provider consume s s') where
  client := ⟨List.nil_prefix, fun _ _ => obeys_uploadChunk⟩
  server := ⟨receives_of_silent rfl rfl, fun _ hs => obeys_receiver hcollision hid hs⟩
  toClient := List.prefix_rfl
  toServer := List.prefix_rfl

end Uploads

/-- An upload to a chunk server over a connection that may break at any point,
if no other bytes have the hash of the data.  If the uploader believes in the
upload, the consumer has been called once on this connection, with this id and
this data, and has accepted.  What is empty or too long never reaches the
consumer, and the upload ends with `false`. -/
theorem uploadChunk_agreement {peer : PeerNode} {provider : Bytes → Proc (Option Bytes)}
    {consume : Bytes → Bytes → Node → Option (Bool × Node)} {s s' : Node}
    (hid : chunkId.length < 2 ^ 32) (hcollision : ∀ d, H.digest d = H.digest data → d = data) :
    (∀ turns conn,
      EveryStep (Connection.step nodePort) (Connection.Faithful nodePort uploader receiver)
        (uploadExchange H chunkId data peer provider consume s s') turns →
      runSteps (Connection.step nodePort)
        (uploadExchange H chunkId data peer provider consume s s') turns = some conn →
      (conn.client.result? = some true →
        conn.server.state.consumed = s'.consumed ++ [⟨chunkId, data, true⟩]) ∧
      (Refused chunkId data →
        conn.server.state.consumed = s'.consumed ∧ conn.client.result? ≠ some true)) ∧
    (Refused chunkId data →
      Inevitable (Connection.step nodePort) UnbrokenUpload
        (Connection.Faithful nodePort uploader receiver)
        (fun conn => conn.client.result? = some false)
        (uploadExchange H chunkId data peer provider consume s s')) := by
  have hinitial : Uploads H chunkId data s'.consumed
      (uploadExchange H chunkId data peer provider consume s s') :=
    Uploads.initial hcollision hid
  have hnever : ∀ conn, Uploads H chunkId data s'.consumed conn → Refused chunkId data →
      conn.client.result? ≠ some true := by
    intro conn h hrefused hresult
    have hcalls := h.accepted hresult
    rw [h.not_called hrefused] at hcalls
    simp at hcalls
  refine ⟨fun turns conn hevery hrun => ?_, fun hrefused => ?_⟩
  · have h : Uploads H chunkId data s'.consumed conn :=
      runSteps_invariant (fun _ _ _ h hfaithful hstep => h.step hfaithful hstep)
        hinitial hevery hrun
    exact ⟨h.accepted, fun hrefused => ⟨h.not_called hrefused, hnever conn h hrefused⟩⟩
  · refine Connection.inevitable (I := Uploads H chunkId data s'.consumed)
      (fun _ _ _ h hfaithful hstep => h.step hfaithful hstep) (fun conn h => ?_) hinitial
    cases hresult : conn.client.result? with
    | none => exact Or.inr (h.progress hrefused hresult)
    | some accepted =>
        cases accepted with
        | true => exact absurd hresult (hnever conn h hrefused)
        | false => exact Or.inl rfl

end Exchange

/-! ## A chunk server over the cache -/

theorem digest_one_unique (d : Bytes)
    (h : Cache.ChunkManager.sampleSha256.digest d = Cache.ChunkManager.sampleSha256.digest [1]) :
    d = [1] := by
  by_contra hne
  by_cases htwo : d = [2]
  · rw [htwo] at h
    exact absurd h (by decide)
  · have hlookup : (d == [1]) = false ∧ (d == [2]) = false :=
      ⟨beq_false_of_ne hne, beq_false_of_ne htwo⟩
    have hother : Cache.ChunkManager.sampleSha256.digest d = List.replicate 32 0 := by
      simp only [Cache.ChunkManager.sampleSha256, Sha256.table, List.lookup_cons, hlookup]
      rfl
    rw [hother] at h
    exact absurd h (by decide)

def readBy {α : Type} (p : Party nodeSignature α) (reply : (e : External) → e.Answer) : Bytes :=
  match p.rest with
  | .await (.external e) _ =>
      match nodePort e with
      | .read got => got (reply e)
      | _ => []
  | _ => []

theorem readBy_of_read {α : Type} {p : Party nodeSignature α} {reply : (e : External) → e.Answer}
    {e : External} {next : e.Answer → Coroutine nodeSignature α} {got : e.Answer → Bytes}
    (hrest : p.rest = .await (.external e) next) (hport : nodePort e = .read got) :
    readBy p reply = got (reply e) := by
  simp only [readBy, hrest, hport]

def InOrder (conn : Connection nodeSignature Bool Unit) : Turn nodeSignature → Prop
  | .client _ reply =>
      conn.client.traffic.received ++ readBy conn.client reply <+: conn.server.traffic.sent
  | .server s reply => s.consumed = conn.server.state.consumed ∧
      conn.server.traffic.received ++ readBy conn.server reply <+: conn.client.traffic.sent

instance (conn : Connection nodeSignature Bool Unit) : ∀ turn, Decidable (InOrder conn turn)
  | .client _ _ => inferInstanceAs (Decidable (_ <+: _))
  | .server _ _ => inferInstanceAs (Decidable (_ ∧ _))

theorem faithful_of_inOrder {conn : Connection nodeSignature Bool Unit}
    {turn : Turn nodeSignature} (h : InOrder conn turn) :
    conn.Faithful nodePort uploader receiver turn := by
  cases turn with
  | client s reply =>
      refine ⟨trivial, fun e next hrest => ?_⟩
      cases hport : nodePort e with
      | read got =>
          rw [InOrder, readBy_of_read hrest hport] at h
          exact h
      | elsewhere => trivial
      | write bytes count => trivial
      | close => trivial
  | server s reply =>
      obtain ⟨hconsumed, hread⟩ := h
      refine ⟨hconsumed, fun e next hrest => ?_⟩
      cases hport : nodePort e with
      | read got =>
          rw [readBy_of_read hrest hport] at hread
          exact hread
      | elsewhere => trivial
      | write bytes count => trivial
      | close => trivial

def turnOf (conn : Connection nodeSignature Bool Unit) : Bool → Turn nodeSignature
  | true => .client conn.client.state (answers
      (conn.server.traffic.sent.drop conn.client.traffic.received.length) none fun _ _ => none)
  | false => .server conn.server.state (answers
      (conn.client.traffic.sent.drop conn.server.traffic.received.length) none fun _ _ => none)

def turnsOf : List Bool → Connection nodeSignature Bool Unit → List (Turn nodeSignature)
  | [], _ => []
  | client :: order, conn =>
      turnOf conn client :: ((conn.step nodePort (turnOf conn client)).elim [] (turnsOf order))

def sampleUpload : Connection nodeSignature Bool Unit :=
  uploadExchange Cache.ChunkManager.sampleSha256 (ascii "c") [1] samplePeer (loadChunk 0)
    (consumeIntoCache Cache.ChunkManager.sampleSha256 0) sampleNode sampleNode

/-- First the upload sends, then the chunk server stores and acknowledges, and then
the upload reads. -/
def acceptedUpload : List (Turn nodeSignature) :=
  turnsOf (List.replicate 5 true ++ List.replicate 7 false ++ List.replicate 3 true) sampleUpload

/-- One upload is taken, and another one, whose id is too long, is refused. -/
theorem uploadChunk_agreement_sample :
    (∃ conn, EveryStep (Connection.step nodePort)
        (Connection.Faithful nodePort uploader receiver) sampleUpload acceptedUpload ∧
      runSteps (Connection.step nodePort) sampleUpload acceptedUpload = some conn ∧
      conn.client.result? = some true ∧
      conn.server.state.consumed = [⟨ascii "c", [1], true⟩]) ∧
    Inevitable (Connection.step nodePort) UnbrokenUpload
      (Connection.Faithful nodePort uploader receiver)
      (fun conn => conn.client.result? = some false)
      (uploadExchange Cache.ChunkManager.sampleSha256 (List.replicate 257 0) [1] samplePeer
        (loadChunk 0) (consumeIntoCache Cache.ChunkManager.sampleSha256 0) sampleNode
        sampleNode) := by
  constructor
  · have hran : ((runSteps (Connection.step nodePort) sampleUpload acceptedUpload).any fun conn =>
        decide (conn.client.result? = some true)) = true := by
      decide +kernel
    have horder : EveryStep (Connection.step nodePort) InOrder sampleUpload acceptedUpload := by
      decide +kernel
    have hfaithful := horder.mono fun _ _ h => faithful_of_inOrder h
    obtain ⟨conn, hrun, hconn⟩ := (Option.any_eq_true _ _).mp hran
    have hresult := of_decide_eq_true hconn
    exact ⟨conn, hfaithful, hrun, hresult,
      ((uploadChunk_agreement (by decide) digest_one_unique).1 acceptedUpload conn hfaithful
        hrun).1 hresult⟩
  · exact (uploadChunk_agreement (by rw [List.length_replicate]; decide) digest_one_unique).2
      (Or.inr (Or.inr (by rw [List.length_replicate]; decide)))

end ElioP2P.P2P
