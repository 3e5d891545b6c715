import ElioP2P.P2P.Proofs.Delivery
import ElioP2P.P2P.Proofs.Streams

/-!
# A download and the chunk server it talks to

`download_from_peer` at one end of a connection and `handle_chunk_request` at
the other.  However the network cuts the two directions into pieces, both ends
agree on where header, echoed chunk id and payload begin, neither waits for
bytes that the other does not send, and the download ends with the data that
the server's provider has, or without success if it has none.
-/

namespace ElioP2P.P2P

open ElioP2P.Library ElioP2P.Library.Coroutine ElioP2P.Proxy

/-! ## The setting -/

def Succeeds : (e : External) → e.Answer → Prop
  | .tcpConnect _ _, ok => ok = true
  | .reserve _, ok => ok = true
  | _, _ => True

def Downloading (ctx : Nat) (chunkId : Bytes) (s : Node) : Prop :=
  ∃ context, s.transfer.contexts[ctx]? = some context ∧ context.chunkId = chunkId ∧
    context.stopFlag = false

def downloader (ctx : Nat) (chunkId : Bytes) : Surroundings nodeSignature where
  finds _ s := Downloading ctx chunkId s
  answers := Succeeds

def supplier (provide : Bytes → Node → Option (Option Bytes × Node)) (chunkId : Bytes)
    (provided : Option Bytes) : Surroundings nodeSignature where
  finds _ s := ∃ s', provide chunkId s = some (provided, s')
  answers _ _ := True

def downloadExchange (H : Sha256) (ctx : Nat) (peer : PeerNode) (expectedSha256 : Bytes)
    (provide : Bytes → Node → Option (Option Bytes × Node)) (consumer : Bytes → Bytes → Proc Bool)
    (s s' : Node) : Connection nodeSignature PeerDownloadResult Unit where
  client := .new s none (downloadFromPeer H ctx peer expectedSha256)
  server := .new s' none (handleChunkRequest
    (fun chunkId => Coroutine.atomically (S := nodeSignature) (provide chunkId)) consumer H)

def downloaded (data : Bytes) : PeerDownloadResult :=
  { success := true, bytesDownloaded := data.length, data := data }

/-! ## What goes over the wire -/

section Wire

variable (H : Sha256) (chunkId data : Bytes)

def BeginsRequest (bytes : Bytes) : Prop :=
  ∃ context : ChunkTransferContext, context.chunkId = chunkId ∧
    bytes <+: headerBytes (requestHeader context) ++ chunkId

def replyHeader : ChunkMessageHeader :=
  if data.isEmpty then emptyReply .error (UInt32.ofNat chunkId.length)
  else hashedHeader H .response (UInt32.ofNat chunkId.length) (UInt32.ofNat data.length)
    ChunkMessageHeader.flagLastPart data

def replyBytes : Bytes := headerBytes (replyHeader H chunkId data) ++ (chunkId ++ data)

/-- How much of the reply the download reads: of an error only the header. -/
def wantedLength : Nat :=
  if data.isEmpty then ChunkMessageHeader.size
  else ChunkMessageHeader.size + (chunkId.length + data.length)

variable {chunkId data}

theorem beginsRequest_nil : BeginsRequest chunkId [] :=
  ⟨⟨chunkId, ⟨[], []⟩, 0, 0, false, false⟩, rfl, List.nil_prefix⟩

theorem BeginsRequest.length_le {bytes : Bytes} (h : BeginsRequest chunkId bytes) :
    bytes.length ≤ ChunkMessageHeader.size + chunkId.length := by
  obtain ⟨context, -, hleads⟩ := h
  have hle := hleads.length_le
  rwa [List.length_append, length_headerBytes] at hle

theorem size_le_wantedLength (chunkId data : Bytes) :
    ChunkMessageHeader.size ≤ wantedLength chunkId data := by
  unfold wantedLength
  split <;> omega

theorem length_replyBytes (chunkId data : Bytes) :
    (replyBytes H chunkId data).length =
      ChunkMessageHeader.size + (chunkId.length + data.length) := by
  rw [replyBytes, List.length_append, List.length_append, length_headerBytes]

theorem wantedLength_le : wantedLength chunkId data ≤ (replyBytes H chunkId data).length := by
  rw [length_replyBytes, wantedLength]
  split <;> omega

theorem toNat_length (hid : chunkId.length ≤ 256) :
    (UInt32.ofNat chunkId.length).toNat = chunkId.length := by
  rw [UInt32.toNat_ofNat']
  exact Nat.mod_eq_of_lt (by omega)

theorem wantedLength_of_ne_nil (chunkId : Bytes) (hdata : data ≠ []) :
    wantedLength chunkId data = ChunkMessageHeader.size + (chunkId.length + data.length) := by
  rw [wantedLength, if_neg (by simpa using hdata)]

theorem replyHeader_of_ne_nil (chunkId : Bytes) (hdata : data ≠ []) :
    replyHeader H chunkId data = hashedHeader H .response (UInt32.ofNat chunkId.length)
      (UInt32.ofNat data.length) ChunkMessageHeader.flagLastPart data := by
  rw [replyHeader, if_neg (by simpa using hdata)]

variable {H}

theorem echoedLength_replyHeader (hid : chunkId.length ≤ 256) (hdata : data ≠ []) :
    echoedLength (replyHeader H chunkId data) = chunkId.length := by
  rw [replyHeader_of_ne_nil H chunkId hdata, echoedLength, hashedHeader]
  simp only [toNat_length hid]
  split <;> omega

theorem dataLength_replyHeader (hdata : data ≠ []) (hlength : data.length < 2 ^ 32) :
    (replyHeader H chunkId data).dataLength.toNat = data.length := by
  rw [replyHeader_of_ne_nil H chunkId hdata, hashedHeader]
  simp only [UInt32.toNat_ofNat']
  exact Nat.mod_eq_of_lt hlength

end Wire

/-! ## The chunk server's end -/

section Server

variable (H : Sha256) (provide : Bytes → Node → Option (Option Bytes × Node)) (chunkId : Bytes)
  (provided : Option Bytes)

def supplierEnd : Endpoint nodeSignature where
  toSurroundings := supplier provide chunkId provided
  input := BeginsRequest chunkId
  eof t := ChunkMessageHeader.size + chunkId.length ≤ t.received.length
  broken t := wantedLength chunkId (provided.getD []) ≤ t.sent.length
  holds t _ := t.sent <+: replyBytes H chunkId (provided.getD []) ∧
    (t.sent ≠ [] → ChunkMessageHeader.size + chunkId.length ≤ t.received.length) ∧
    (t.closed = true → ChunkMessageHeader.size + chunkId.length ≤ t.received.length ∧
      wantedLength chunkId (provided.getD []) ≤ t.sent.length)
  reading t := t.sent = [] ∧ t.received.length < ChunkMessageHeader.size + chunkId.length
  hangs := False

def Supplied (t : Traffic) : Prop :=
  t.sent <+: replyBytes H chunkId (provided.getD []) ∧
    ChunkMessageHeader.size + chunkId.length ≤ t.received.length ∧
    wantedLength chunkId (provided.getD []) ≤ t.sent.length

variable {H provide chunkId provided}

theorem Supplied.holds {t : Traffic} (h : Supplied H chunkId provided t) (s : Node) :
    (supplierEnd H provide chunkId provided).holds t s :=
  ⟨h.1, fun _ => h.2.1, fun _ => h.2⟩

theorem writes_reply {t : Traffic}
    (hreceived : t.received.length = ChunkMessageHeader.size + chunkId.length)
    (hsent : t.sent = []) (hopen : t.closed = false) :
    Writes (supplierEnd H provide chunkId provided) (fun _ => True) t
      (replyBytes H chunkId (provided.getD [])) fun t _ _ => Supplied H chunkId provided t where
  wait done rest s hdone _ _ := by
    refine ⟨?_, fun _ => hreceived.ge, fun hclosed => ?_⟩
    · rw [Traffic.sends_sent, hsent]
      exact ⟨rest, hdone⟩
    · rw [Traffic.sends_closed, hopen] at hclosed
      cases hclosed
  full s _ := by
    rw [Supplied, Traffic.sends_sent, hsent]
    exact ⟨List.prefix_rfl, hreceived.ge, wantedLength_le H⟩
  broken done rest s hdone _ hbroken _ := by
    refine ⟨?_, hreceived.ge, hbroken⟩
    rw [Traffic.sends_sent, hsent]
    exact ⟨rest, hdone⟩

theorem obeys_close {t : Traffic} {s : Node} (h : Supplied H chunkId provided t) :
    streamClose.Obeys nodePort (supplierEnd H provide chunkId provided)
      (fun t _ _ => Supplied H chunkId provided t) t s :=
  obeys_streamClose (h.holds s) fun _ _ => h

theorem obeys_serveChunk {header : ChunkMessageHeader} {t : Traffic} {s : Node}
    (hheader : header.chunkIdLength = UInt32.ofNat chunkId.length)
    (hreceived : t.received.length = ChunkMessageHeader.size + chunkId.length)
    (hsent : t.sent = []) (hopen : t.closed = false)
    (hs : ∃ s', provide chunkId s = some (provided, s')) :
    (serveChunk (fun chunkId => Coroutine.atomically (S := nodeSignature) (provide chunkId)) H
        header chunkId).Obeys nodePort (supplierEnd H provide chunkId provided)
      (fun t _ _ => Supplied H chunkId provided t) t s := by
  obtain ⟨s₁, hs₁⟩ := hs
  refine Obeys.bind (obeys_atomically (fun hnone => ?_) fun value s' hvalue => ?_)
  · rw [hs₁] at hnone
    cases hnone
  rw [hs₁] at hvalue
  cases hvalue
  have hstable : Stable (supplierEnd H provide chunkId provided) fun _ => True :=
    fun _ _ _ _ => trivial
  have hwrites : Writes (supplierEnd H provide chunkId provided) (fun _ => True) t _ _ :=
    writes_reply hreceived hsent hopen
  rw [replyBytes, replyHeader] at hwrites
  simp only
  split
  · rename_i hempty
    have hnil : provided.getD [] = [] := by simpa using hempty
    rw [if_pos hempty, hnil, List.append_nil, ← hheader] at hwrites
    exact (hwrites.obeys_writeMessage hstable trivial).seq fun t _ s h => obeys_close h
  · rename_i hsome
    rw [if_neg hsome, ← hheader, ← List.append_assoc] at hwrites
    have hpaced : Paced (supplierEnd H provide chunkId provided) fun _ => True :=
      ⟨hstable, fun _ _ _ _ => trivial, fun _ => trivial⟩
    refine Obeys.bind ((hwrites.left (fun s _ hrest => ?_) fun t s h => ?_).obeys_writeMessage
      hstable trivial)
    · refine Obeys.seq (hrest.obeys_sendSlices hpaced trivial (Nat.le_refl _)) ?_
      exact fun t _ s h => obeys_close h
    · exact obeys_close h

/-- As long as the request is not complete, the server waits for the rest of it. -/
theorem waits_request {got : Bytes} (s : Node)
    (hgot : got.length < ChunkMessageHeader.size + chunkId.length) :
    (supplierEnd H provide chunkId provided).holds (({} : Traffic).gets got) s ∧
      (supplierEnd H provide chunkId provided).reading (({} : Traffic).gets got) :=
  ⟨⟨List.nil_prefix, fun hsent => absurd rfl hsent, fun hclosed => nomatch hclosed⟩, rfl, hgot⟩

theorem not_eof_request {got : Bytes}
    (hgot : got.length < ChunkMessageHeader.size + chunkId.length) :
    ¬(supplierEnd H provide chunkId provided).eof (({} : Traffic).gets got) := Nat.not_le.mpr hgot

theorem obeys_handleChunkRequest {consumer : Bytes → Bytes → Proc Bool} {s : Node}
    (hid : chunkId.length ≤ 256) (hs : ∃ s', provide chunkId s = some (provided, s')) :
    (handleChunkRequest (fun chunkId => Coroutine.atomically (S := nodeSignature) (provide chunkId))
        consumer H).Obeys nodePort (supplierEnd H provide chunkId provided)
      (fun t _ _ => Supplied H chunkId provided t) {} s := by
  have hstable : Stable (supplierEnd H provide chunkId provided)
      fun s => ∃ s', provide chunkId s = some (provided, s') := fun _ _ _ hfinds => hfinds
  refine Obeys.bind (obeys_readHeader hstable hs beginsRequest_nil
    (fun got s hgot _ _ => waits_request s (by omega)) (fun header s hin hs => ?_)
    fun got s hgot heof _ => absurd heof (not_eof_request (by omega)))
  obtain ⟨context, rfl, hleads⟩ := hin
  rw [List.nil_append, ← List.append_nil (headerBytes header)] at hleads
  obtain ⟨rfl, -⟩ := headerBytes_leads hleads
  have hlength : (requestHeader context).chunkIdLength.toNat = context.chunkId.length :=
    toNat_length hid
  have hshort : ¬((requestHeader context).magic ≠ chunkTransferMagic ∨
      256 < (requestHeader context).chunkIdLength) := by
    rw [UInt32.lt_iff_toNat_lt, hlength]
    rintro (hmagic | hlong)
    · exact hmagic rfl
    · exact absurd hlong (by simpa using hid)
  have hmore : ∀ got : Bytes, got.length < context.chunkId.length →
      (headerBytes (requestHeader context) ++ got).length <
        ChunkMessageHeader.size + context.chunkId.length := by
    intro got hgot
    rw [List.length_append, length_headerBytes]
    omega
  simp only [hshort, if_false, hlength]
  refine Obeys.bind (Gets.obeys_readExact ⟨fun got s hgot _ _ => waits_request s (hmore got hgot),
    fun got s hgot hin hs => ?_,
    fun got s hgot heof _ => absurd heof (not_eof_request (hmore got hgot))⟩ hstable hs
    ⟨context, rfl, List.prefix_append _ _⟩)
  obtain ⟨context', hsame, hleads⟩ := hin
  have hgotId : got = context.chunkId := (headerBytes_leads hleads).2.eq_of_length hgot
  subst hgotId
  have htype : (requestHeader context).messageType ≠ ChunkMessageType.upload.toUInt32 := by
    change ChunkMessageType.request.toUInt32 ≠ ChunkMessageType.upload.toUInt32
    decide
  simp only [ne_eq, not_true_eq_false, if_false, htype]
  refine obeys_serveChunk rfl ?_ rfl rfl hs
  simp [length_headerBytes]

end Server

/-! ## The download's end -/

section Client

variable (H : Sha256) (ctx : Nat) (chunkId data expectedSha256 : Bytes)

def downloaderEnd : Endpoint nodeSignature where
  toSurroundings := downloader ctx chunkId
  input r := r <+: replyBytes H chunkId data
  eof t := wantedLength chunkId data ≤ t.received.length
  broken t := ChunkMessageHeader.size + chunkId.length ≤ t.sent.length
  holds t _ := BeginsRequest chunkId t.sent ∧
    (t.closed = true → wantedLength chunkId data ≤ t.received.length)
  reading t := t.sent.length = ChunkMessageHeader.size + chunkId.length ∧
    t.received.length < wantedLength chunkId data
  hangs := False

structure EndsDownload (t : Traffic) (result : PeerDownloadResult) : Prop where
  sent : BeginsRequest chunkId t.sent
  received : wantedLength chunkId data ≤ t.received.length
  failure : data = [] → result.success = false
  success : data ≠ [] → expectedSha256 = [] ∨ expectedSha256 = H.hex data →
    result = downloaded data ∧ t.received = replyBytes H chunkId data

variable {H ctx chunkId data expectedSha256}

theorem paced_downloading :
    Paced (downloaderEnd H ctx chunkId data) (Downloading ctx chunkId) where
  stable _ _ _ hfinds := hfinds
  transfer s t hs ht := by
    obtain ⟨context, hcontext, hdownload⟩ := hs
    refine ⟨context, ?_, hdownload⟩
    simp only [ht, hcontext]
  sleeps _ := trivial

theorem Downloading.running {s : Node} (h : Downloading ctx chunkId s) :
    s.transfer.isStopped ctx = false := by
  obtain ⟨context, hcontext, -, hstop⟩ := h
  rw [TransferManager.isStopped, hcontext]
  exact hstop

/-- The traffic of a download that has sent its request and got `r`. -/
structure Asked (chunkId : Bytes) (t : Traffic) : Prop where
  sent : BeginsRequest chunkId t.sent
  length : t.sent.length = ChunkMessageHeader.size + chunkId.length
  opened : t.closed = false

theorem Asked.gets {t : Traffic} (h : Asked chunkId t) (bytes : Bytes) :
    Asked chunkId (t.gets bytes) := ⟨h.sent, h.length, h.opened⟩

theorem Asked.holds {t : Traffic} (h : Asked chunkId t) (s : Node) :
    (downloaderEnd H ctx chunkId data).holds t s := by
  refine ⟨h.sent, fun hclosed => ?_⟩
  rw [h.opened] at hclosed
  cases hclosed

theorem Asked.reading {t : Traffic} (h : Asked chunkId t)
    (hmore : t.received.length < wantedLength chunkId data) :
    (downloaderEnd H ctx chunkId data).reading t := ⟨h.length, hmore⟩

theorem Asked.waits {t : Traffic} (h : Asked chunkId t) {got : Bytes} (s : Node)
    (hmore : (t.received ++ got).length < wantedLength chunkId data) :
    (downloaderEnd H ctx chunkId data).holds (t.gets got) s ∧
      (downloaderEnd H ctx chunkId data).reading (t.gets got) :=
  ⟨(h.gets got).holds s, (h.gets got).reading hmore⟩

theorem not_eof_of_lt {t : Traffic} {got : Bytes}
    (hmore : (t.received ++ got).length < wantedLength chunkId data) :
    ¬(downloaderEnd H ctx chunkId data).eof (t.gets got) := Nat.not_le.mpr hmore

theorem verifyData_replyHeader (hdata : data ≠ [])
    (hexpected : expectedSha256 = [] ∨ expectedSha256 = H.hex data) :
    verifyData H (replyHeader H chunkId data) expectedSha256 data = downloaded data := by
  have hhash : (replyHeader H chunkId data).hash = H.digest data := by
    rw [replyHeader_of_ne_nil H chunkId hdata]
    rfl
  rw [verifyData, if_neg (by simp [hhash]), if_neg]
  · rfl
  · rcases hexpected with rfl | rfl <;> simp

theorem obeys_receiveReplyData {t : Traffic} {s : Node} (ht : Asked chunkId t)
    (hreceived : t.received = headerBytes (replyHeader H chunkId data) ++ chunkId)
    (hdata : data ≠ []) (hs : Downloading ctx chunkId s) :
    (receiveData ctx data.length data.length []).Obeys nodePort (downloaderEnd H ctx chunkId data)
      (fun t received _ => received = .ok data ∧ t.received = replyBytes H chunkId data ∧
        Asked chunkId t) t s := by
  have hmore : ∀ more : Bytes, more.length < data.length →
      (t.received ++ more).length < wantedLength chunkId data := by
    intro more hlt
    rw [hreceived, wantedLength_of_ne_nil chunkId hdata]
    simp only [List.length_append, length_headerBytes]
    omega
  have hgets : Gets (downloaderEnd H ctx chunkId data) (Downloading ctx chunkId) t
      data.length fun t received _ =>
        (.ok received : Except PeerDownloadResult Bytes) = .ok data ∧
          t.received = replyBytes H chunkId data ∧ Asked chunkId t :=
    { wait := fun more s hlt _ _ => ht.waits s (hmore more hlt)
      full := fun more s hlength hin _ => by
        rw [hreceived, List.append_assoc] at hin
        have hgotData : more = data :=
          ((List.prefix_append_right_inj _).mp (headerBytes_leads hin).2).eq_of_length hlength
        refine ⟨congrArg _ hgotData, ?_, ht.gets more⟩
        rw [hgotData, Traffic.gets_received, hreceived, replyBytes, List.append_assoc]
      short := fun more s hlt heof _ => absurd heof (not_eof_of_lt (hmore more hlt)) }
  refine Gets.obeys_receiveData hgets paced_downloading hs (fun s hs => hs.running) ?_ ?_
  · exact fun more hlt => not_eof_of_lt (hmore more hlt)
  · change t.received <+: replyBytes H chunkId data
    rw [hreceived, replyBytes, ← List.append_assoc]
    exact List.prefix_append _ _

theorem obeys_receiveResponse {t : Traffic} {s : Node} (ht : Asked chunkId t)
    (hreceived : t.received = headerBytes (replyHeader H chunkId data))
    (hid : chunkId.length ≤ 256) (hdata : data ≠ []) (hlength : data.length < 2 ^ 32)
    (hs : Downloading ctx chunkId s) :
    (receiveResponse H ctx expectedSha256 (replyHeader H chunkId data)).Obeys nodePort
      (downloaderEnd H ctx chunkId data)
      (fun t result _ => EndsDownload H chunkId data expectedSha256 t result) t s := by
  have hmore : ∀ got : Bytes, got.length < chunkId.length →
      (t.received ++ got).length < wantedLength chunkId data := by
    intro got hlt
    rw [hreceived, wantedLength_of_ne_nil chunkId hdata]
    simp only [List.length_append, length_headerBytes]
    omega
  have hin : (downloaderEnd H ctx chunkId data).input t.received := by
    change t.received <+: replyBytes H chunkId data
    rw [hreceived]
    exact List.prefix_append _ _
  unfold receiveResponse
  simp only [echoedLength_replyHeader hid hdata, dataLength_replyHeader hdata hlength]
  refine Obeys.bind (Gets.obeys_readExact ⟨fun got s hlt _ _ => ht.waits s (hmore got hlt),
    fun got s hgot hin hs => ?_, fun got s hlt heof _ => absurd heof
      (not_eof_of_lt (hmore got hlt))⟩
    paced_downloading.stable hs hin)
  rw [hreceived] at hin
  have hgotId : got = chunkId := eq_of_headerBytes_leads hin hgot
  subst hgotId
  simp only [ne_eq, not_true_eq_false, if_false]
  refine Obeys.bind (obeys_reserve ((ht.gets got).holds s) ⟨true, rfl⟩ ?_)
  rintro ok s hfinds (rfl : ok = true)
  simp only [Bool.not_true, Bool.false_eq_true, if_false]
  have hgot : (t.gets got).received = headerBytes (replyHeader H got data) ++ got := by
    rw [Traffic.gets_received, hreceived]
  refine Obeys.seq (obeys_receiveReplyData (ht.gets got) hgot hdata hfinds) ?_
  rintro t' - s' ⟨rfl, hall, hasked⟩
  refine Obeys.bind (obeys_streamClose (hasked.holds s') fun s _ => ?_)
  refine ⟨hasked.sent, ?_, fun hnil => absurd hnil hdata, fun _ hexpected =>
    ⟨verifyData_replyHeader hdata hexpected, hall⟩⟩
  rw [Traffic.shut_received, hall]
  exact wantedLength_le H

theorem writes_request {context : ChunkTransferContext} :
    Writes (downloaderEnd H ctx context.chunkId data) (Downloading ctx context.chunkId) {}
      (headerBytes (requestHeader context) ++ context.chunkId)
      fun t ok s => ok = true ∧ Asked context.chunkId t ∧ t.received = [] ∧
        Downloading ctx context.chunkId s where
  wait done rest s hdone _ _ := ⟨⟨context, rfl, rest, hdone⟩, fun hclosed => nomatch hclosed⟩
  full s hs := by
    refine ⟨rfl, ⟨⟨context, rfl, List.prefix_rfl⟩, ?_, rfl⟩, rfl, hs⟩
    simp [length_headerBytes]
  broken done rest s hdone hrest hbroken _ := by
    -- A write only fails once the server has read the whole request.
    have hlength := congrArg List.length hdone
    have hpos : 0 < rest.length := List.length_pos_of_ne_nil hrest
    change ChunkMessageHeader.size + context.chunkId.length ≤ done.length at hbroken
    rw [List.length_append, List.length_append, length_headerBytes] at hlength
    omega

theorem obeys_reply {t : Traffic} {s : Node} (ht : Asked chunkId t)
    (hreceived : t.received = headerBytes (replyHeader H chunkId data))
    (hid : chunkId.length ≤ 256) (hlength : data.length < 2 ^ 32) (hs : Downloading ctx chunkId s) :
    (if (replyHeader H chunkId data).magic ≠ chunkTransferMagic ∨
        (replyHeader H chunkId data).messageType ≠ ChunkMessageType.response.toUInt32 then
      closeWith {}
    else receiveResponse H ctx expectedSha256 (replyHeader H chunkId data)).Obeys nodePort
      (downloaderEnd H ctx chunkId data)
      (fun t result _ => EndsDownload H chunkId data expectedSha256 t result) t s := by
  by_cases hdata : data = []
  · subst hdata
    have hbad : (replyHeader H chunkId []).messageType ≠ ChunkMessageType.response.toUInt32 := by
      change ChunkMessageType.error.toUInt32 ≠ ChunkMessageType.response.toUInt32
      decide
    rw [if_pos (Or.inr hbad)]
    refine obeys_closeWith (ht.holds s) fun s _ => ?_
    refine ⟨ht.sent, ?_, fun _ => rfl, fun hne => absurd rfl hne⟩
    rw [Traffic.shut_received, hreceived, length_headerBytes]
    exact Nat.le_refl _
  · have hgood : ¬((replyHeader H chunkId data).magic ≠ chunkTransferMagic ∨
        (replyHeader H chunkId data).messageType ≠ ChunkMessageType.response.toUInt32) := by
      rw [replyHeader_of_ne_nil H chunkId hdata]
      rintro (hmagic | htype)
      · exact hmagic rfl
      · exact htype rfl
    rw [if_neg hgood]
    exact obeys_receiveResponse ht hreceived hid hdata hlength hs

theorem obeys_downloadFromPeer {peer : PeerNode} {s : Node} (hid : chunkId.length ≤ 256)
    (hlength : data.length < 2 ^ 32) (hs : Downloading ctx chunkId s) :
    (downloadFromPeer H ctx peer expectedSha256).Obeys nodePort (downloaderEnd H ctx chunkId data)
      (fun t result _ => EndsDownload H chunkId data expectedSha256 t result) {} s := by
  have hpaced : Paced (downloaderEnd H ctx chunkId data) (Downloading ctx chunkId) :=
    paced_downloading
  refine Obeys.bind (obeys_tcpConnect ⟨beginsRequest_nil, fun hclosed => nomatch hclosed⟩
    ⟨true, rfl⟩ ?_)
  rintro ok s hs (rfl : ok = true)
  obtain ⟨context, hcontext, rfl, hstop⟩ := hs
  refine Obeys.bind (obeys_onTransfer ?_)
  simp only [hcontext, Option.getD_some]
  refine Obeys.seq (writes_request.obeys_writeMessage hpaced.stable
    ⟨context, hcontext, rfl, hstop⟩) ?_
  rintro t ok s ⟨rfl, hasked, hnone, hs⟩
  simp only [Bool.not_true, Bool.false_eq_true, if_false]
  have hmore : ∀ got : Bytes, got.length < ChunkMessageHeader.size →
      (t.received ++ got).length < wantedLength context.chunkId data := by
    intro got hlt
    have hsize := size_le_wantedLength context.chunkId data
    rw [hnone, List.nil_append]
    omega
  refine Obeys.bind (obeys_readHeader hpaced.stable hs ?_ ?_ ?_ ?_)
  · rw [hnone]
    exact List.nil_prefix
  · exact fun got s hlt _ _ => hasked.waits s (hmore got hlt)
  · intro header s hin hs
    rw [hnone, List.nil_append, ← List.append_nil (headerBytes header)] at hin
    obtain ⟨rfl, -⟩ := headerBytes_leads hin
    refine obeys_reply (hasked.gets _) ?_ hid hlength hs
    rw [Traffic.gets_received, hnone, List.nil_append]
  · exact fun got s hlt heof _ => absurd heof (not_eof_of_lt (hmore got hlt))

end Client

/-! ## The exchange -/

section Exchange

variable {H : Sha256} {ctx : Nat} {peer : PeerNode} {chunkId expectedSha256 : Bytes}
  {provide : Bytes → Node → Option (Option Bytes × Node)} {provided : Option Bytes}

/-- The turns of a download in a network that cuts both directions into pieces
of at least one byte. -/
def HonestDownload (ctx : Nat) (chunkId : Bytes)
    (provide : Bytes → Node → Option (Option Bytes × Node)) (provided : Option Bytes)
    (conn : Connection nodeSignature PeerDownloadResult Unit) (turn : Turn nodeSignature) : Prop :=
  conn.Faithful nodePort (downloader ctx chunkId) (supplier provide chunkId provided) turn ∧
    conn.Unbroken nodePort turn

def Exchanges (H : Sha256) (ctx : Nat) (chunkId expectedSha256 : Bytes)
    (provide : Bytes → Node → Option (Option Bytes × Node)) (provided : Option Bytes)
    (conn : Connection nodeSignature PeerDownloadResult Unit) : Prop :=
  conn.Agreed nodePort (downloaderEnd H ctx chunkId (provided.getD []))
    (supplierEnd H provide chunkId provided)
    (fun t result _ => EndsDownload H chunkId (provided.getD []) expectedSha256 t result)
    fun t _ _ => Supplied H chunkId provided t

namespace Exchanges

variable {conn conn' : Connection nodeSignature PeerDownloadResult Unit} {turn : Turn nodeSignature}

theorem requested (h : Exchanges H ctx chunkId expectedSha256 provide provided conn) :
    BeginsRequest chunkId conn.client.traffic.sent :=
  h.client.always (Q := fun t _ => BeginsRequest chunkId t.sent) (fun _ _ hholds => hholds.1)
    fun _ _ _ hends => hends.sent

theorem replied (h : Exchanges H ctx chunkId expectedSha256 provide provided conn) :
    conn.server.traffic.sent <+: replyBytes H chunkId (provided.getD []) :=
  h.server.always (Q := fun t _ => t.sent <+: replyBytes H chunkId (provided.getD []))
    (fun _ _ hholds => hholds.1) fun _ _ _ hends => hends.1

theorem client_closed (h : Exchanges H ctx chunkId expectedSha256 provide provided conn)
    (hclosed : conn.client.Closed) :
    wantedLength chunkId (provided.getD []) ≤ conn.client.traffic.received.length :=
  h.client.of_closed (Q := fun t => wantedLength chunkId (provided.getD []) ≤ t.received.length)
    hclosed (fun _ _ hholds => hholds.2) fun _ _ _ hends => hends.received

/-- The server closes its end when it has read the request and written all that
the download wants. -/
theorem server_closed (h : Exchanges H ctx chunkId expectedSha256 provide provided conn)
    (hclosed : conn.server.Closed) :
    ChunkMessageHeader.size + chunkId.length ≤ conn.server.traffic.received.length ∧
      wantedLength chunkId (provided.getD []) ≤ conn.server.traffic.sent.length :=
  h.server.of_closed (Q := fun t => ChunkMessageHeader.size + chunkId.length ≤ t.received.length ∧
    wantedLength chunkId (provided.getD []) ≤ t.sent.length)
    hclosed (fun _ _ hholds => hholds.2.2) fun _ _ _ hends => hends.2

theorem client_admits (h : Exchanges H ctx chunkId expectedSha256 provide provided conn)
    {s : Node} {reply : (e : External) → e.Answer}
    (hfaithful : conn.client.Faithful nodePort (downloader ctx chunkId) conn.server s reply)
    (hunbroken : conn.client.Unbroken nodePort conn.server reply) :
    ∀ e next, conn.client.rest = .await (.external e) next →
      (downloaderEnd H ctx chunkId (provided.getD [])).Admits nodePort conn.client.traffic e
        (reply e) := by
  refine Party.Faithful.admits_unbroken hfaithful hunbroken ?_ ?_ ?_
  · exact fun r hr => hr.trans h.replied
  · intro hclosed hall
    have hsent := (h.server_closed hclosed).2
    rwa [← hall] at hsent
  · intro hclosed
    exact Nat.le_trans (h.server_closed hclosed).1 h.toServer.length_le

theorem server_admits (h : Exchanges H ctx chunkId expectedSha256 provide provided conn)
    {s : Node} {reply : (e : External) → e.Answer}
    (hfaithful : conn.server.Faithful nodePort (supplier provide chunkId provided) conn.client s
      reply)
    (hunbroken : conn.server.Unbroken nodePort conn.client reply) :
    ∀ e next, conn.server.rest = .await (.external e) next →
      (supplierEnd H provide chunkId provided).Admits nodePort conn.server.traffic e (reply e) := by
  have hwritten : conn.client.Closed →
      wantedLength chunkId (provided.getD []) ≤ conn.server.traffic.sent.length :=
    fun hclosed => Nat.le_trans (h.client_closed hclosed) h.toClient.length_le
  refine Party.Faithful.admits_unbroken hfaithful hunbroken ?_ ?_ hwritten
  · intro r hr
    obtain ⟨context, hcontext, hleads⟩ := h.requested
    exact ⟨context, hcontext, hr.trans hleads⟩
  · intro hclosed _
    have hsome : conn.server.traffic.sent ≠ [] := by
      intro hnil
      have hwanted := hwritten hclosed
      have hsize := size_le_wantedLength chunkId (provided.getD [])
      rw [hnil, List.length_nil, ChunkMessageHeader.size] at *
      omega
    exact h.server.always (Q := fun t _ => t.sent ≠ [] →
      ChunkMessageHeader.size + chunkId.length ≤ t.received.length)
      (fun _ _ hholds => hholds.2.1) (fun _ _ _ hends _ => hends.2.1) hsome

theorem step (h : Exchanges H ctx chunkId expectedSha256 provide provided conn)
    (hhonest : HonestDownload ctx chunkId provide provided conn turn)
    (hstep : conn.step nodePort turn = some conn') :
    Exchanges H ctx chunkId expectedSha256 provide provided conn' := by
  refine Connection.Agreed.step h hhonest.1 ?_ ?_ hstep
  · rintro s reply rfl
    exact h.client_admits hhonest.1 hhonest.2
  · rintro s reply rfl
    exact h.server_admits hhonest.1 hhonest.2

theorem progress (h : Exchanges H ctx chunkId expectedSha256 provide provided conn) {s s' : Node}
    (hs : Downloading ctx chunkId s) (hs' : ∃ t, provide chunkId s' = some (provided, t))
    (hresult : conn.client.result? = none) :
    ∃ turn conn', HonestDownload ctx chunkId provide provided conn turn ∧
      conn.step nodePort turn = some conn' := by
  have hfree : (downloaderEnd H ctx chunkId (provided.getD [])).reading conn.client.traffic →
      (supplierEnd H provide chunkId provided).reading conn.server.traffic →
        conn.server.traffic.received ≠ conn.client.traffic.sent := by
    intro hreading hreading' hall
    have hlt := hreading'.2
    rw [hall, hreading.1] at hlt
    exact Nat.lt_irrefl _ hlt
  obtain ⟨turn, conn', hfaithful, hunbroken, hstep⟩ := Connection.Agreed.progress h id id hresult
    hs hs' hfree (fun _ => h.client_admits) (fun _ => h.server_admits)
    (answers [] none fun _ _ => none)
  exact ⟨turn, conn', ⟨hfaithful, hunbroken⟩, hstep⟩

theorem initial {consumer : Bytes → Bytes → Proc Bool} {s s' : Node} (hid : chunkId.length ≤ 256)
    (hlength : (provided.getD []).length < 2 ^ 32) :
    Exchanges H ctx chunkId expectedSha256 provide provided
      (downloadExchange H ctx peer expectedSha256 provide consumer s s') where
  client := ⟨⟨beginsRequest_nil, fun hclosed => nomatch hclosed⟩,
    fun _ hs => obeys_downloadFromPeer hid hlength hs⟩
  server := ⟨⟨List.nil_prefix, fun hsent => absurd rfl hsent, fun hclosed => nomatch hclosed⟩,
    fun _ hs => obeys_handleChunkRequest hid hs⟩
  toClient := List.prefix_rfl
  toServer := List.prefix_rfl

end Exchanges

def AllRead {α β : Type} (conn : Connection nodeSignature α β) : Prop :=
  conn.client.traffic.received = conn.server.traffic.sent ∧
    conn.server.traffic.received = conn.client.traffic.sent

/-- Once the download has all of the reply, nothing is left on the way. -/
theorem Exchanges.allRead {conn : Connection nodeSignature PeerDownloadResult Unit}
    (h : Exchanges H ctx chunkId expectedSha256 provide provided conn)
    (hall : conn.client.traffic.received = replyBytes H chunkId (provided.getD [])) :
    AllRead conn := by
  have hsent : conn.client.traffic.received = conn.server.traffic.sent := by
    refine h.toClient.eq_of_length_le ?_
    rw [hall]
    exact h.replied.length_le
  refine ⟨hsent, h.toServer.eq_of_length_le ?_⟩
  have hsome : conn.server.traffic.sent ≠ [] := by
    intro hnil
    rw [← hsent, hall] at hnil
    have hlength := length_replyBytes H chunkId (provided.getD [])
    rw [hnil, List.length_nil, ChunkMessageHeader.size] at hlength
    omega
  have hread := h.server.always (Q := fun t _ => t.sent ≠ [] →
    ChunkMessageHeader.size + chunkId.length ≤ t.received.length)
    (fun _ _ hholds => hholds.2.1) (fun _ _ _ hends _ => hends.2.1) hsome
  exact Nat.le_trans h.requested.length_le hread

/-- A download from a chunk server, in any network that delivers what is
written, in pieces of at least one byte: headers arrive as they were sent, a
provider's data arrives complete, and without data the download fails. -/
theorem downloadFromPeer_exchange {consumer : Bytes → Bytes → Proc Bool} {s s' : Node}
    (hid : chunkId.length ≤ 256) (hlength : (provided.getD []).length < 2 ^ 32)
    (hs : Downloading ctx chunkId s) (hs' : ∃ t, provide chunkId s' = some (provided, t)) :
    (∀ h, headerFromWire (headerToWire h) = h) ∧
    (∀ data, provided = some data → data ≠ [] →
      expectedSha256 = [] ∨ expectedSha256 = H.hex data →
        Inevitable (Connection.step nodePort) (HonestDownload ctx chunkId provide provided)
          (HonestDownload ctx chunkId provide provided)
          (fun conn => conn.client.result? = some (downloaded data) ∧ AllRead conn ∧
            conn.client.traffic.received = headerBytes (hashedHeader H .response
              (UInt32.ofNat chunkId.length) (UInt32.ofNat data.length)
              ChunkMessageHeader.flagLastPart data) ++ (chunkId ++ data))
          (downloadExchange H ctx peer expectedSha256 provide consumer s s')) ∧
    (provided.getD [] = [] →
      Inevitable (Connection.step nodePort) (HonestDownload ctx chunkId provide provided)
        (HonestDownload ctx chunkId provide provided)
        (fun conn => ∃ result, conn.client.result? = some result ∧ result.success = false)
        (downloadExchange H ctx peer expectedSha256 provide consumer s s')) := by
  have hinevitable : ∀ Q : Connection nodeSignature PeerDownloadResult Unit → Prop,
      (∀ conn result, Exchanges H ctx chunkId expectedSha256 provide provided conn →
        conn.client.result? = some result → Q conn) →
      Inevitable (Connection.step nodePort) (HonestDownload ctx chunkId provide provided)
        (HonestDownload ctx chunkId provide provided) Q
        (downloadExchange H ctx peer expectedSha256 provide consumer s s') := by
    intro Q hQ
    refine Connection.inevitable (I := Exchanges H ctx chunkId expectedSha256 provide provided)
      (fun _ _ _ h hhonest hstep => h.step hhonest hstep) (fun conn h => ?_)
      (Exchanges.initial hid hlength)
    cases hresult : conn.client.result? with
    | none => exact Or.inr (h.progress hs hs' hresult)
    | some result => exact Or.inl (hQ conn result h hresult)
  refine ⟨headerFromWire_headerToWire, ?_, ?_⟩
  · rintro data rfl hdata hexpected
    refine hinevitable _ fun conn result h hresult => ?_
    obtain ⟨hvalue, hall⟩ := (h.client.ends hresult).success hdata hexpected
    refine ⟨by rw [hresult, hvalue]; rfl, h.allRead hall, ?_⟩
    rw [hall, replyBytes, replyHeader, if_neg (by simpa using hdata)]
    rfl
  · intro hnone
    refine hinevitable _ fun conn result h hresult => ?_
    exact ⟨result, hresult, (h.client.ends hresult).failure hnone⟩

end Exchange

/-! ## A chunk server over the cache -/

def sampleDownloader : Node :=
  { sampleNode with transfer := (openContext sampleDownload sampleTransfer).2 }

def sampleSupplier : Node :=
  { sampleNode with
    cache := ((sampleNode.cache.storeChunk Cache.ChunkManager.sampleSha256 0 (ascii "c") [1]).elim
      sampleNode.cache Prod.snd) }

theorem downloadFromPeer_exchange_sample :
    (ascii "c").length ≤ 256 ∧ Downloading 0 (ascii "c") sampleDownloader ∧
    (∃ t, provideFromCache 0 (ascii "c") sampleSupplier = some (some [1], t)) ∧
    Inevitable (Connection.step nodePort)
      (HonestDownload 0 (ascii "c") (provideFromCache 0) (some [1]))
      (HonestDownload 0 (ascii "c") (provideFromCache 0) (some [1]))
      (fun conn => conn.client.result? = some (downloaded [1]) ∧ AllRead conn ∧
        conn.client.traffic.received = headerBytes (hashedHeader Cache.ChunkManager.sampleSha256
          .response (UInt32.ofNat 1) (UInt32.ofNat 1) ChunkMessageHeader.flagLastPart [1]) ++
            (ascii "c" ++ [1]))
      (downloadExchange Cache.ChunkManager.sampleSha256 0 samplePeer
        sampleDownload.expectedSha256 (provideFromCache 0)
        (storeChunk Cache.ChunkManager.sampleSha256 0) sampleDownloader sampleSupplier) := by
  have hprovides : (provideFromCache 0 (ascii "c") sampleSupplier).map Prod.fst =
      some (some [1]) := by
    decide +kernel
  obtain ⟨⟨provided, t⟩, hprovided, rfl⟩ := Option.map_eq_some_iff.mp hprovides
  have hdownloading : Downloading 0 (ascii "c") sampleDownloader := ⟨_, rfl, rfl, rfl⟩
  refine ⟨by decide, hdownloading, ⟨t, hprovided⟩, ?_⟩
  exact (downloadFromPeer_exchange (by decide) (by decide) hdownloading ⟨t, hprovided⟩).2.1 [1] rfl
    (by decide) (Or.inr rfl)

end ElioP2P.P2P
