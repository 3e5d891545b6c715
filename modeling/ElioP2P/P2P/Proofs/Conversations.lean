import ElioP2P.Cluster
import ElioP2P.P2P.Proofs.ChunkFrame
import ElioP2P.P2P.Proofs.Exchange
import ElioP2P.P2P.Proofs.Upload

/-!
# Conversations between honest peers

What honest clients write to a stream, what an honest chunk server answers, and
what each of the two may conclude from what it reads.
-/

namespace ElioP2P.P2P

open ElioP2P.Library ElioP2P.Library.Coroutine ElioP2P.Cache ElioP2P.Cache.ChunkManager

/-! ## The streams of a history -/

section Streams

variable {h new : List (Event nodeSignature)} {e : External} {answer : e.Answer}

theorem streamsOf_append (h new : List (Event nodeSignature)) :
    streamsOf (h ++ new) = (exchangesOf new).foldl Streams.after (streamsOf h) := by
  rw [streamsOf, exchangesOf_append, List.foldl_append]
  rfl

theorem streamsOf_external (h : List (Event nodeSignature)) (exchange : NetExchange) :
    streamsOf (h ++ [.external exchange]) = (streamsOf h).after exchange :=
  streamsOf_append h [.external exchange]

theorem streamsOf_concat {w : Wait nodeSignature} {reply : w.Reply}
    (hw : ∀ e, w ≠ .external e) : streamsOf (h ++ [.of w reply]) = streamsOf h := by
  rw [streamsOf_append]
  cases w with
  | external e => exact absurd rfl (hw e)
  | spawn job => rfl
  | join id job => rfl

theorem streamsOf_connected (h : List (Event nodeSignature)) (address : Bytes) (port : UInt16) :
    streamsOf (h ++ [.external (⟨.tcpConnect address port, true⟩ : NetExchange)]) =
      ⟨(streamsOf h).earlier ++ [(streamsOf h).current], {}⟩ := by
  rw [streamsOf_external]
  rfl

theorem streamsOf_quiet (hquiet : connects ⟨e, answer⟩ = false) :
    streamsOf (h ++ [.external (⟨e, answer⟩ : NetExchange)]) =
      ⟨(streamsOf h).earlier, (streamsOf h).current.after (nodePort e) answer⟩ := by
  rw [streamsOf_external, Streams.after, hquiet]
  rfl

theorem connects_of_isConnect {exchange : NetExchange} (h : isConnect exchange = false) :
    connects exchange = false := by
  obtain ⟨e, answer⟩ := exchange
  cases e with
  | tcpConnect address port => cases h
  | _ => rfl

theorem streamsOf_listening {w : Wait nodeSignature} (hw : Listening w) (reply : w.Reply) :
    (streamsOf (h ++ [.of w reply])).current.sent = (streamsOf h).current.sent ∧
      (streamsOf (h ++ [.of w reply])).earlier = (streamsOf h).earlier := by
  have hexternal : ∀ (e : External) (answer : e.Answer), connects ⟨e, answer⟩ = false →
      (∀ t : Traffic, (t.after (nodePort e) answer).sent = t.sent) →
        (streamsOf (h ++ [.external (⟨e, answer⟩ : NetExchange)])).current.sent =
            (streamsOf h).current.sent ∧
          (streamsOf (h ++ [.external (⟨e, answer⟩ : NetExchange)])).earlier =
            (streamsOf h).earlier := by
    intro e answer hquiet hsent
    rw [streamsOf_quiet hquiet]
    exact ⟨hsent _, rfl⟩
  unfold Listening at hw
  split at hw
  · exact hexternal (.streamRead _) reply rfl fun _ => rfl
  · exact hexternal .streamClose reply rfl fun _ => rfl
  · exact hexternal (.reserve _) reply rfl fun _ => rfl
  · exact hexternal (.sleepFor _) reply rfl fun _ => rfl
  · exact hw.elim

theorem received_after {exchange : NetExchange} (hquiet : isConnect exchange = false)
    (streams : Streams) : (streams.after exchange).current.received =
      streams.current.received ++ incoming exchange := by
  rw [Streams.after, connects_of_isConnect hquiet]
  obtain ⟨e, answer⟩ := exchange
  cases e with
  | tcpConnect address port => cases hquiet
  | streamRead n => rfl
  | streamWrite bytes => exact (List.append_nil _).symm
  | streamClose => exact (List.append_nil _).symm
  | reserve n => exact (List.append_nil _).symm
  | sleepFor ms => exact (List.append_nil _).symm
  | lock access => exact (List.append_nil _).symm
  | headObject bucket key => exact (List.append_nil _).symm
  | getObject bucket key offset length => exact (List.append_nil _).symm

theorem received_foldl {exchanges : List NetExchange}
    (hquiet : ∀ x ∈ exchanges, isConnect x = false) (streams : Streams) :
    (exchanges.foldl Streams.after streams).current.received =
      streams.current.received ++ received exchanges := by
  induction exchanges generalizing streams with
  | nil => exact (List.append_nil _).symm
  | cons exchange exchanges ih =>
      have hrest := ih (fun x hx => hquiet x (List.mem_cons_of_mem _ hx)) (streams.after exchange)
      rw [List.foldl_cons, hrest, received_after (hquiet exchange List.mem_cons_self),
        List.append_assoc]
      rfl

theorem received_of_reads {bytes : Bytes} (hreads : Reads bytes new) :
    (streamsOf (h ++ new)).current.received = (streamsOf h).current.received ++ bytes := by
  rw [streamsOf_append, received_foldl hreads.quiet, hreads.received]

theorem received_of_connected {before after : List NetExchange} {address : Bytes} {port : UInt16}
    (hexchanges : exchangesOf h = before ++ ⟨.tcpConnect address port, true⟩ :: after)
    (hquiet : ∀ x ∈ after, isConnect x = false) :
    (streamsOf h).current.received = received after := by
  rw [streamsOf, hexchanges, List.foldl_append, List.foldl_cons, received_foldl hquiet]
  exact List.nil_append _

end Streams

/-! ## Messages -/

/-- What data each chunk id stands for.  A header counts the id and the data
modulo `2 ^ 32`, and ids with the same file name share their data. -/
structure Truth where
  right : Bytes → Bytes → Prop
  sameFile : ∀ {id id' data}, SameFile id' id → right id data → right id' data
  counted : ∀ {id data}, right id data → right id (data.take (UInt32.ofNat data.length).toNat)
  named : ∀ {id data}, right (id.take (UInt32.ofNat id.length).toNat) data → right id data

def requestBytes (context : ChunkTransferContext) : Bytes :=
  headerBytes (requestHeader context) ++ context.chunkId

section Messages

variable (T : Truth) (H : Sha256)

inductive Message : Bytes → Prop
  | request (context : ChunkTransferContext) : Message (requestBytes context)
  | upload {chunkId data : Bytes} (hid : chunkId.length < 2 ^ 32) (hright : T.right chunkId data) :
      Message (uploadBytes H chunkId data)

def Trusted (job : Job) (sent received : Bytes) : Prop :=
  match job with
  | .chunkConnection => ∃ message, Message T H message ∧ received <+: message
  | _ => ∀ context, sent = requestBytes context → ∃ chunkId data, chunkId.length ≤ 256 ∧
      (data ≠ [] → T.right context.chunkId data) ∧ received <+: replyBytes H chunkId data

/-- What an honest chunk server writes: after an upload anything, after a request
the reply to it. -/
def Answers (received sent : Bytes) : Prop :=
  ∃ header chunkId, headerBytes header ++ chunkId <+: received ∧
    chunkId.length = header.chunkIdLength.toNat ∧ chunkId.length ≤ 256 ∧
    (header.messageType ≠ ChunkMessageType.upload.toUInt32 → ∃ data,
      (data ≠ [] → T.right chunkId data) ∧ sent <+: replyBytes H chunkId data)

/-- What a task that has read `received` may have written. -/
def MaySend (job : Job) (received sent : Bytes) : Prop :=
  match job with
  | .chunkConnection => Answers T H received sent
  | _ => ∃ message, Message T H message ∧ sent <+: message

variable {T H}

theorem trusted_nil (job : Job) (sent : Bytes) : Trusted T H job sent [] := by
  unfold Trusted
  split
  · exact ⟨_, .request ⟨[], ⟨[], []⟩, 0, 0, false, false⟩, List.nil_prefix⟩
  · exact fun context _ => ⟨[], [], by simp, fun hne => absurd rfl hne, List.nil_prefix⟩

theorem Answers.mono {received sent sent' : Bytes} (h : Answers T H received sent)
    (hle : sent' <+: sent) : Answers T H received sent' := by
  obtain ⟨header, chunkId, hread, hid, hshort, hreply⟩ := h
  refine ⟨header, chunkId, hread, hid, hshort, fun htype => ?_⟩
  obtain ⟨data, hdata, hsent⟩ := hreply htype
  exact ⟨data, hdata, hle.trans hsent⟩

theorem Answers.received_mono {received received' sent : Bytes} (h : Answers T H received sent)
    (hle : received <+: received') : Answers T H received' sent := by
  obtain ⟨header, chunkId, hread, hreply⟩ := h
  exact ⟨header, chunkId, hread.trans hle, hreply⟩

theorem MaySend.message {job : Job} {received sent : Bytes} (h : MaySend T H job received sent)
    (hjob : job ≠ .chunkConnection) : ∃ message, Message T H message ∧ sent <+: message := by
  unfold MaySend at h
  split at h
  · exact absurd rfl hjob
  · exact h

/-- Only the answer to a request has to be trusted. -/
theorem trusted_of_requests {job : Job} {sent received : Bytes} (hjob : job ≠ .chunkConnection)
    (h : ∀ context, sent = requestBytes context → Trusted T H job (requestBytes context) received) :
    Trusted T H job sent received := by
  cases job with
  | chunkConnection => exact absurd rfl hjob
  | _ => exact fun context hsent => h context hsent context rfl

theorem MaySend.mono {job : Job} {received sent sent' : Bytes}
    (h : MaySend T H job received sent) (hle : sent' <+: sent) :
    MaySend T H job received sent' := by
  unfold MaySend at h ⊢
  split at h
  · exact h.mono hle
  · obtain ⟨message, hmessage, hsent⟩ := h
    exact ⟨message, hmessage, hle.trans hsent⟩

theorem maySend_of_message {job : Job} (hjob : job ≠ .chunkConnection) {message : Bytes}
    (hmessage : Message T H message) (received : Bytes) : MaySend T H job received message := by
  unfold MaySend
  split
  · exact absurd rfl hjob
  · exact ⟨message, hmessage, List.prefix_rfl⟩

theorem Answers.trusted {context : ChunkTransferContext} {received sent read : Bytes} {job : Job}
    (h : Answers T H received sent) (hjob : job ≠ .chunkConnection)
    (hreceived : received <+: requestBytes context) (hread : read <+: sent) :
    Trusted T H job (requestBytes context) read := by
  obtain ⟨header, chunkId, hheader, hid, hshort, hreply⟩ := h
  have hleads : headerBytes header ++ chunkId <+: requestBytes context := hheader.trans hreceived
  obtain ⟨rfl, hnamed⟩ := headerBytes_leads hleads
  have hchunk : chunkId = context.chunkId.take (UInt32.ofNat context.chunkId.length).toNat := by
    rw [List.prefix_iff_eq_take] at hnamed
    rw [hnamed, hid]
    rfl
  have htype : (requestHeader context).messageType ≠ ChunkMessageType.upload.toUInt32 := by
    change ChunkMessageType.request.toUInt32 ≠ ChunkMessageType.upload.toUInt32
    decide
  obtain ⟨data, hdata, hsent⟩ := hreply htype
  have htrusted : ∀ context', requestBytes context = requestBytes context' →
      ∃ chunkId data, chunkId.length ≤ 256 ∧ (data ≠ [] → T.right context'.chunkId data) ∧
        read <+: replyBytes H chunkId data := by
    intro context' hsame
    obtain ⟨hheader', hid'⟩ := List.append_inj hsame (by simp [length_headerBytes])
    refine ⟨chunkId, data, hshort, fun hne => ?_, hread.trans hsent⟩
    rw [← hid']
    apply T.named
    rw [← hchunk]
    exact hdata hne
  unfold Trusted
  split
  · exact absurd rfl hjob
  · exact htrusted

theorem right_of_complete {context : ChunkTransferContext} {received data : Bytes} {job : Job}
    (hjob : job ≠ .chunkConnection) (htrusted : Trusted T H job (requestBytes context) received)
    (hcomplete : CompleteResponse H received data) : T.right context.chunkId data := by
  obtain ⟨header, id, rfl, -, htype, hid, hlength, -⟩ := hcomplete
  have hread : ∃ chunkId data', chunkId.length ≤ 256 ∧
      (data' ≠ [] → T.right context.chunkId data') ∧
        headerBytes header ++ id ++ data <+: replyBytes H chunkId data' := by
    unfold Trusted at htrusted
    split at htrusted
    · exact absurd rfl hjob
    · exact htrusted context rfl
  obtain ⟨chunkId, data', hshort, hright, hleads⟩ := hread
  rw [List.append_assoc] at hleads
  obtain ⟨rfl, hrest⟩ := headerBytes_leads hleads
  have hne : data' ≠ [] := by
    rintro rfl
    revert htype
    change ChunkMessageType.error.toUInt32 = ChunkMessageType.response.toUInt32 → False
    decide
  rw [echoedLength_replyHeader hshort hne] at hid
  obtain ⟨rest, hrest⟩ := hrest
  rw [List.append_assoc] at hrest
  obtain ⟨rfl, hdata⟩ := List.append_inj hrest hid
  rw [replyHeader_of_ne_nil H id hne] at hlength
  have hcounted : data = data'.take (UInt32.ofNat data'.length).toNat := by
    change (UInt32.ofNat data'.length).toNat = data.length at hlength
    rw [hlength, ← hdata, List.take_left]
  rw [hcounted]
  exact T.counted (hright hne)

theorem right_of_upload {header : ChunkMessageHeader} {chunkId data : Bytes}
    (htrusted : Trusted T H .chunkConnection sent (headerBytes header ++ (chunkId ++ data)))
    (htype : header.messageType = ChunkMessageType.upload.toUInt32)
    (hid : chunkId.length = header.chunkIdLength.toNat)
    (hlength : data.length = header.dataLength.toNat) : T.right chunkId data := by
  obtain ⟨message, hmessage, hleads⟩ := htrusted
  cases hmessage with
  | request context =>
      obtain ⟨rfl, -⟩ := headerBytes_leads hleads
      revert htype
      change ChunkMessageType.request.toUInt32 = ChunkMessageType.upload.toUInt32 → _
      exact fun heq => absurd heq (by decide)
  | @upload id data' hshort hright =>
      obtain ⟨rfl, rest, hrest⟩ := headerBytes_leads hleads
      have hwhole : (uploadHeader H id data').chunkIdLength.toNat = id.length := by
        change (UInt32.ofNat id.length).toNat = id.length
        rw [UInt32.toNat_ofNat', Nat.mod_eq_of_lt hshort]
      rw [List.append_assoc] at hrest
      obtain ⟨rfl, hdata⟩ := List.append_inj hrest (hid.trans hwhole)
      have hcounted : data = data'.take (UInt32.ofNat data'.length).toNat := by
        change data.length = (UInt32.ofNat data'.length).toNat at hlength
        rw [← hlength, ← hdata, List.take_left]
      rw [hcounted]
      exact T.counted hright

end Messages

end ElioP2P.P2P
