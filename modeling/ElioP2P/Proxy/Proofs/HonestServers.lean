import ElioP2P.Proxy.Proofs.HonestPeers

/-!
# Honest chunk servers

What a node keeps in its cache and hands out of it is right, also what the chunk
server gets and gives, and so is what the node uploads.
-/

namespace ElioP2P.Proxy

open ElioP2P.Library ElioP2P.Library.Coroutine ElioP2P.Cache ElioP2P.Cache.ChunkManager
open ElioP2P.P2P hiding Quiet

section Honest

variable {A : Terms} {fuel : Nat} {job : Job} {h : List (Event nodeSignature)} {s : Node}
  {α : Type}

/-! ## The cache -/

theorem Upright.quiet (hs : Upright A.truth s) {s' : Node} (hquiet : Quiet s s') :
    Upright A.truth s' where
  owned := by
    rw [hquiet.transfer]
    exact hs.owned
  faultless := hquiet.setup.faultless hs.faultless
  copies id data hcopy := hs.copies id data (hquiet.copies id data hcopy)

theorem Upright.stores (hs : Upright A.truth s) {s' : Node} {chunkId data : Bytes}
    (hstores : Stores chunkId data s s') (hright : A.truth.right chunkId data) :
    Upright A.truth s' where
  owned := by
    rw [hstores.transfer]
    exact hs.owned
  faultless := hstores.setup.faultless hs.faultless
  copies id data' hcopy := by
    rcases hstores.copies id data' hcopy with ⟨hfile, rfl⟩ | hold
    · exact A.truth.sameFile hfile hright
    · exact hs.copies id data' hold

theorem keepsContexts_of_same {s s' : Node} (h : s'.transfer = s.transfer) :
    KeepsContexts s s' := by
  intro chunkId ctx howns
  rw [h]
  exact howns

theorem follows_lock (hs : Upright A.truth s) (access : Access) :
    (lock access).Follows A.discipline job
      (fun h' _ s' => h' = h ++ [turn access] ∧ Upright A.truth s') h s :=
  (follows_ask hs trivial).mono fun _ _ _ hpost => ⟨hpost.1, hpost.2.1⟩

theorem At.turn {inp out : Bytes} (hat : At h inp out) (access : Access) :
    At (h ++ [turn access]) inp out :=
  @At.quiet h inp out hat (.lock access) () rfl rfl

theorem follows_loadChunk (hs : Upright A.truth s) (chunkId : Bytes) :
    (loadChunk fuel chunkId).Follows A.discipline job
      (fun h' data s' => h' = h ++ [turn (.load chunkId)] ∧ Upright A.truth s' ∧
        Fetched A chunkId data) h s := by
  refine (follows_lock hs _).seq ?_
  rintro h' _ s₁ ⟨rfl, hs₁⟩
  apply follows_atomically
  intro data s' hload
  obtain ⟨hcopy, hquiet⟩ := provideFromCache_spec hload
  exact ⟨keepsContexts_of_same hquiet.transfer, rfl, hs₁.quiet hquiet,
    fun d hd => hs₁.copies chunkId d (hcopy d hd)⟩

theorem follows_storeChunk (hs : Upright A.truth s) {chunkId data : Bytes}
    (hright : A.truth.right chunkId data) :
    (storeChunk A.hash fuel chunkId data).Follows A.discipline job
      (fun h' _ s' => h' = h ++ [turn (.store chunkId data)] ∧ Upright A.truth s') h s := by
  refine (follows_lock hs _).seq ?_
  rintro h' _ s₁ ⟨rfl, hs₁⟩
  apply follows_atomically
  intro ok s' hstore
  have hstores := consumeIntoCache_spec hs₁.faultless hstore
  exact ⟨keepsContexts_of_same hstores.transfer, rfl, hs₁.stores hstores hright⟩

/-! ## The chunk server -/

structure Reading (A : Terms) (job : Job) (inp out : Bytes) (h : List (Event nodeSignature)) :
    Prop extends At h inp out where
  trusted : Trusted A.truth A.hash job out inp

theorem Reading.heard {inp out : Bytes} (hreading : Reading A job inp out h) :
    Heard A job out h := by
  refine ⟨hreading.sent, ?_⟩
  rw [hreading.received]
  exact hreading.trusted

theorem follows_reading {c : Proc α} {Q : List (Event nodeSignature) → α → Prop} {inp out : Bytes}
    (hc : c.Within Listening Calm s)
    (hguarantees : Guarantees ((deliverySpec A.hash).contract job) (fun _ _ _ => True) none c Q)
    (hreading : Reading A job inp out h) (hs : Upright A.truth s) :
    c.Follows A.discipline job (fun h' value s => Upright A.truth s ∧ ∃ new, Q new value ∧
      ∀ bytes, Reads bytes new → Reading A job (inp ++ bytes) out h') h s := by
  refine (follows_guaranteed (follows_heard hc hreading.heard hs) hguarantees).mono ?_
  rintro h' value s' ⟨⟨hheard, hs'⟩, new, rfl, hvalue⟩
  refine ⟨hs', new, hvalue, fun bytes hreads => ?_⟩
  have hreceived := received_of_reads (h := h) hreads
  rw [hreading.received] at hreceived
  refine ⟨⟨hreceived, hheard.sent⟩, ?_⟩
  rw [← hreceived]
  exact hheard.trusted

theorem follows_readExact {inp out : Bytes} (hreading : Reading A job inp out h)
    (hs : Upright A.truth s) (n : Nat) :
    (readExact n).Follows A.discipline job
      (fun h' bytes s => Upright A.truth s ∧ Reading A job (inp ++ bytes) out h') h s := by
  refine (follows_reading (within_readExact (fun _ hw => hw) n)
    (guarantees_readExact (transferContract_delivery job) n) hreading hs).mono ?_
  rintro h' bytes s' ⟨hs', new, ⟨-, hreads⟩, hread⟩
  exact ⟨hs', hread bytes hreads⟩

theorem follows_readHeader {inp out : Bytes} (hreading : Reading A job inp out h)
    (hs : Upright A.truth s) :
    readHeader.Follows A.discipline job (fun h' result s => Upright A.truth s ∧
      ∀ header, result = some header → Reading A job (inp ++ headerBytes header) out h') h s := by
  refine (follows_reading (within_readHeader fun _ hw => hw)
    (guarantees_readHeader (transferContract_delivery job)) hreading hs).mono ?_
  rintro h' result s' ⟨hs', new, hresult, hread⟩
  refine ⟨hs', fun header hheader => ?_⟩
  obtain ⟨wire, rfl, hreads⟩ := hresult header hheader
  rw [headerBytes_headerFromWire]
  exact hread wire.val hreads

theorem follows_replied (hs : Upright A.truth s) :
    streamClose.Follows A.discipline job (fun _ _ s => Upright A.truth s) h s :=
  (follows_ask hs trivial).mono fun _ _ _ hpost => hpost.2.1

/-- What a chunk server may write on a message of which it has read the header and
the id. -/
theorem maySend_reply {header : ChunkMessageHeader} {chunkId inp out data : Bytes}
    (hread : headerBytes header ++ chunkId <+: inp)
    (hid : chunkId.length = header.chunkIdLength.toNat) (hshort : chunkId.length ≤ 256)
    (hdata : data ≠ [] → A.truth.right chunkId data)
    (hout : out <+: replyBytes A.hash chunkId data) :
    MaySend A.truth A.hash .chunkConnection inp out :=
  ⟨header, chunkId, hread, hid, hshort, fun _ => ⟨data, hdata, hout⟩⟩

theorem maySend_ack {header : ChunkMessageHeader} {chunkId inp : Bytes}
    (hread : headerBytes header ++ chunkId <+: inp)
    (hid : chunkId.length = header.chunkIdLength.toNat) (hshort : chunkId.length ≤ 256)
    (htype : header.messageType = ChunkMessageType.upload.toUInt32) (out : Bytes) :
    MaySend A.truth A.hash .chunkConnection inp out :=
  ⟨header, chunkId, hread, hid, hshort, fun hne => absurd htype hne⟩

/-- An upload is stored only if it came in whole, and then it is right. -/
theorem follows_receiveUpload {header : ChunkMessageHeader} {chunkId : Bytes}
    (hreading : Reading A .chunkConnection (headerBytes header ++ chunkId) [] h)
    (hs : Upright A.truth s) (hid : chunkId.length = header.chunkIdLength.toNat)
    (hshort : chunkId.length ≤ 256)
    (htype : header.messageType = ChunkMessageType.upload.toUInt32) :
    (receiveUpload (storeChunk A.hash fuel) A.hash header chunkId).Follows A.discipline
      .chunkConnection (fun _ _ s => Upright A.truth s) h s := by
  unfold receiveUpload
  simp only
  split
  · exact hs
  · refine (follows_readExact hreading hs _).seq ?_
    rintro h' data s' ⟨hs', hread⟩
    split
    · exact hs'
    · rename_i hwhole
      have hright : A.truth.right chunkId data := by
        have htrusted := hread.trusted
        rw [List.append_assoc] at htrusted
        exact right_of_upload htrusted htype hid (not_not.mp hwhole)
      have haccept : (acceptUpload (storeChunk A.hash fuel) A.hash header chunkId data).Follows
          A.discipline .chunkConnection (fun h'' _ s =>
            At h'' (headerBytes header ++ chunkId ++ data) [] ∧ Upright A.truth s) h' s' := by
        unfold acceptUpload
        split
        · refine (follows_storeChunk hs' hright).mono ?_
          rintro _ _ s'' ⟨rfl, hs''⟩
          exact ⟨hread.toAt.turn _, hs''⟩
        · exact ⟨hread.toAt, hs'⟩
      refine haccept.seq ?_
      rintro h'' accepted s'' ⟨hat, hs''⟩
      refine (follows_writeMessage hat ?_ hs'').seq ?_
      · exact maySend_ack (List.prefix_append _ _) hid hshort htype _
      · rintro h₃ _ s₃ ⟨hs₃, -⟩
        exact follows_replied hs₃

theorem follows_serveChunk {header : ChunkMessageHeader} {chunkId : Bytes}
    (hreading : Reading A .chunkConnection (headerBytes header ++ chunkId) [] h)
    (hs : Upright A.truth s) (hid : chunkId.length = header.chunkIdLength.toNat)
    (hshort : chunkId.length ≤ 256) :
    (serveChunk (loadChunk fuel) A.hash header chunkId).Follows A.discipline .chunkConnection
      (fun _ _ s => Upright A.truth s) h s := by
  have hechoed : header.chunkIdLength = UInt32.ofNat chunkId.length := by
    rw [hid, UInt32.ofNat_toNat]
  refine (follows_loadChunk hs chunkId).seq ?_
  rintro _ loaded s' ⟨rfl, hs', hfetched⟩
  have hat : At (h ++ [turn (.load chunkId)]) (headerBytes header ++ chunkId) [] :=
    hreading.toAt.turn _
  have hdata : loaded.getD [] ≠ [] → A.truth.right chunkId (loaded.getD []) := by
    intro hne
    cases loaded with
    | none => exact absurd rfl hne
    | some data => exact hfetched data rfl
  simp only
  split
  · rename_i hempty
    refine (follows_writeMessage hat ?_ hs').seq
      fun _ _ _ hpost => follows_replied hpost.1
    refine maySend_reply List.prefix_rfl hid hshort hdata ?_
    rw [List.isEmpty_iff.mp hempty, hechoed, List.nil_append, replyBytes, List.append_nil]
    exact List.prefix_rfl
  · rename_i hne
    have hnonempty : loaded.getD [] ≠ [] := by simpa using hne
    have hreply : ∀ out, out <+: replyBytes A.hash chunkId (loaded.getD []) →
        MaySend A.truth A.hash .chunkConnection (headerBytes header ++ chunkId) out :=
      fun out => maySend_reply List.prefix_rfl hid hshort hdata
    rw [replyBytes, replyHeader_of_ne_nil A.hash chunkId hnonempty, ← List.append_assoc] at hreply
    rw [hechoed]
    refine (follows_writeMessage hat (hreply _ ?_) hs').seq ?_
    · rw [List.nil_append]
      exact List.prefix_append _ _
    · rintro h' sent s'' ⟨hs'', hat'⟩
      split
      · rename_i hsent
        refine (follows_sendSlices (Nat.le_refl _) (hat' hsent) (hreply _ ?_) hs'').seq
          fun _ _ _ hpost => follows_replied hpost.1
        rw [List.nil_append]
      · exact follows_replied hs''

theorem follows_handleChunkRequest (hs : Upright A.truth s) :
    (handleChunkRequest (loadChunk fuel) (storeChunk A.hash fuel) A.hash).Follows A.discipline
      .chunkConnection (fun _ _ s => Upright A.truth s) [] s := by
  have hopen : Reading A .chunkConnection [] [] [] := ⟨⟨rfl, rfl⟩, trusted_nil _ _⟩
  refine (follows_readHeader hopen hs).seq ?_
  rintro h' result s' ⟨hs', hread⟩
  cases result with
  | none => exact hs'
  | some header =>
      simp only
      split
      · exact hs'
      · rename_i hkind
        refine (follows_readExact (hread header rfl) hs' _).seq ?_
        rintro h'' chunkId s'' ⟨hs'', hreading⟩
        split
        · exact hs''
        · rename_i hwhole
          have hid := not_not.mp hwhole
          have hshort : chunkId.length ≤ 256 := by
            rw [hid]
            exact Nat.not_lt.mp (not_or.mp hkind).2
          split
          · rename_i htype
            exact follows_receiveUpload hreading hs'' hid hshort htype
          · exact follows_serveChunk hreading hs'' hid hshort

/-! ## Uploading -/

theorem follows_counting {f : TransferManager → α × TransferManager}
    (hf : SameContexts s.transfer (f s.transfer).2) (hs : Upright A.truth s) :
    (onTransfer f).Follows A.discipline job (fun h' _ s' => h' = h ∧ Upright A.truth s') h s :=
  follows_onTransfer (fun _ _ howns => owns_of_same hf howns)
    ⟨rfl, hs.transfer (owned_of_same hf)⟩

theorem follows_uploadFailed (hs : Upright A.truth s) (close : Bool) :
    (uploadFailed close).Follows A.discipline job (fun _ _ s => Upright A.truth s) h s := by
  refine (follows_counting ⟨rfl, rfl, rfl⟩ hs).seq ?_
  rintro h' _ s' ⟨-, hs'⟩
  split
  · exact (follows_closeWith hs').mono fun _ _ _ hpost => hpost.2
  · exact hs'

theorem follows_uploadChunk {chunkId data : Bytes} (hjob : job ≠ .chunkConnection)
    (hid : chunkId.length < 2 ^ 32) (hright : A.truth.right chunkId data) (hs : Upright A.truth s)
    (peer : PeerNode) :
    (uploadChunk A.hash chunkId data peer).Follows A.discipline job
      (fun _ _ s => Upright A.truth s) h s := by
  have hmay : MaySend A.truth A.hash job []
      (headerBytes (uploadHeader A.hash chunkId data) ++ chunkId ++ data) := by
    rw [List.append_assoc]
    exact maySend_of_message hjob (.upload hid hright) []
  refine (follows_look _).seq ?_
  rintro _ running _ ⟨rfl, -, rfl⟩
  split
  · exact hs
  · refine (follows_counting ⟨rfl, rfl, rfl⟩ hs).seq ?_
    rintro _ _ s' ⟨rfl, hs'⟩
    refine Follows.seq (follows_ask hs' hjob) ?_
    rintro h' connected s' ⟨rfl, hs', -⟩
    split
    · exact follows_uploadFailed hs' false
    · rename_i hconnected
      have hopen : connected = true := by simpa using hconnected
      subst hopen
      refine (follows_writeMessage (at_connected _ _)
        (hmay.mono (List.prefix_append _ _)) hs').seq ?_
      rintro h' sent s' ⟨hs', hsent⟩
      split
      · exact follows_uploadFailed hs' true
      · rename_i hok
        refine (follows_sendSlices (Nat.le_refl _) (hsent (by simpa using hok)) hmay hs').seq ?_
        rintro h' sentData s' ⟨hs', hsentData⟩
        split
        · exact follows_uploadFailed hs' true
        · rename_i hall
          have hat := hsentData (by simpa using hall)
          refine (follows_heard (within_readUploadReply calm_transfer (fun _ hw => hw) data)
            ⟨hat.sent, ?_⟩ hs').mono fun _ _ _ hpost => hpost.2
          rw [hat.received]
          exact trusted_nil job _

end Honest

end ElioP2P.Proxy
