import ElioP2P.Cache.Proofs.Refinement
import ElioP2P.Library.RelyGuarantee
import ElioP2P.Library.Runs
import ElioP2P.Proxy.ChunkAccess

/-!
# What a download delivers

A download ends with data only if one connection to one peer has carried, from
its opening on, exactly a response header, the echoed chunk id and this data,
with the data's hash in the header.  The statement is about the exchanges of
single tasks, so it does not matter how the racing tasks are interleaved, when
the stop flag is raised, or what any peer sends.
-/

namespace ElioP2P.P2P

open ElioP2P.Library ElioP2P.Library.Coroutine ElioP2P.Proxy

abbrev NetExchange := Sigma External.Answer

/-! ## Reading a history -/

def incoming : NetExchange → Bytes
  | ⟨.streamRead _, bytes⟩ => bytes.val
  | _ => []

def isConnect : NetExchange → Bool
  | ⟨.tcpConnect _ _, _⟩ => true
  | _ => false

def received (exchanges : List NetExchange) : Bytes := exchanges.flatMap incoming

/-- Within these events exactly `bytes` came in, and no connection was opened. -/
structure Reads (bytes : Bytes) (events : List (Event nodeSignature)) : Prop where
  received : received (exchangesOf events) = bytes
  quiet : ∀ x ∈ exchangesOf events, isConnect x = false

theorem Reads.nil : Reads [] [] where
  received := rfl
  quiet := by simp [exchangesOf]

theorem Reads.append {a b : Bytes} {x y : List (Event nodeSignature)} (ha : Reads a x)
    (hb : Reads b y) : Reads (a ++ b) (x ++ y) where
  received := by
    rw [exchangesOf_append, P2P.received, List.flatMap_append]
    exact congrArg₂ _ ha.received hb.received
  quiet := by
    intro e he
    rw [exchangesOf_append, List.mem_append] at he
    rcases he with he | he
    · exact ha.quiet e he
    · exact hb.quiet e he

theorem Reads.exchange {e : External} {answer : e.Answer} (h : isConnect ⟨e, answer⟩ = false) :
    Reads (incoming ⟨e, answer⟩) [.external (⟨e, answer⟩ : NetExchange)] where
  received := by simp [P2P.received, exchangesOf]
  quiet := by
    intro x hx
    simp only [exchangesOf, List.filterMap_cons, List.filterMap_nil, List.mem_singleton] at hx
    rw [hx]
    exact h

/-! ## Complete responses -/

def CompleteResponse (H : Sha256) (bytes data : Bytes) : Prop :=
  ∃ header id, bytes = headerBytes header ++ id ++ data ∧ header.magic = chunkTransferMagic ∧
    header.messageType = ChunkMessageType.response.toUInt32 ∧ id.length = echoedLength header ∧
    header.dataLength.toNat = data.length ∧ header.hash = H.digest data

def Delivered (H : Sha256) (peer : PeerNode) (expectedSha256 : Bytes)
    (exchanges : List NetExchange) (data : Bytes) : Prop :=
  (expectedSha256 ≠ [] → H.hex data = expectedSha256) ∧
    ∃ before after, exchanges = before ++ ⟨.tcpConnect peer.address peer.port, true⟩ :: after ∧
      (∀ x ∈ after, isConnect x = false) ∧ CompleteResponse H (received after) data

theorem Delivered.prepend {H : Sha256} {peer : PeerNode} {expectedSha256 data : Bytes}
    {exchanges : List NetExchange} (h : Delivered H peer expectedSha256 exchanges data)
    (earlier : List NetExchange) : Delivered H peer expectedSha256 (earlier ++ exchanges) data := by
  obtain ⟨hexpected, before, after, rfl, hquiet, hcomplete⟩ := h
  exact ⟨hexpected, earlier ++ before, after, by simp, hquiet, hcomplete⟩

def JoinDelivers (H : Sha256) (peer : PeerNode) (expectedSha256 : Bytes)
    (finished : Finished nodeSignature) : Prop :=
  ∀ result : PeerDownloadResult, finished.result = JobResult.peerDownload result →
    result.success = true → Delivered H peer expectedSha256 finished.exchanges result.data

/-! ## Contracts that transfers keep -/

def IsTransferWait : Wait nodeSignature → Prop
  | .external (.headObject _ _) | .external (.getObject _ _ _ _) | .external (.lock _) => False
  | _ => True

/-- A contract that does not look at the transfer manager and the discovery
service, expects nothing of an exception, and tells a task that joins a download
what that download did. -/
structure TransferContract (H : Sha256) (C : Contract nodeSignature)
    (K : List (Event nodeSignature) → nodeSignature.Frame → Node → Prop) : Prop where
  holds : ∀ frame (s : Node) transfer discovery, C.holds frame s →
    C.holds frame { s with transfer := transfer, discovery := discovery }
  changes : ∀ h (s : Node) transfer discovery,
    C.changes h s { s with transfer := transfer, discovery := discovery }
  knows : ∀ h frame (s : Node) transfer discovery, K h frame s →
    K h frame { s with transfer := transfer, discovery := discovery }
  rely : ∀ h frame s w reply, IsTransferWait w → C.admits h frame s w reply →
    K (h ++ [.of w reply]) frame s
  allowed : ∀ ctx peer expectedSha256, C.allowed (.downloadFromPeer ctx peer expectedSha256)
  joined : ∀ h frame s id ctx peer expectedSha256 finished,
    C.admits h frame s (.join id (.downloadFromPeer ctx peer expectedSha256)) finished →
      JoinDelivers H peer expectedSha256 finished
  throws : ∀ h frame s, C.holds frame s → C.throws h frame s

section Routines

variable {H : Sha256} {C : Contract nodeSignature} 
  {K : List (Event nodeSignature) → nodeSignature.Frame → Node → Prop}
  {frame : nodeSignature.Frame}

/-! ## Single exchanges -/

theorem guarantees_ask (hC : TransferContract H C K) {e : External}
    (he : IsTransferWait (.external e)) {Q : List (Event nodeSignature) → e.Answer → Prop}
    (hQ : ∀ answer, Q [.external (⟨e, answer⟩ : NetExchange)] answer) :
    Guarantees C K frame (Coroutine.ask (S := nodeSignature) e) Q :=
  guarantees_await trivial (fun h s reply => hC.rely h frame s _ reply he)
    fun answer _ => guarantees_pure (hQ answer)

theorem guarantees_quiet (hC : TransferContract H C K) {e : External}
    (he : IsTransferWait (.external e))
    (hconnect : ∀ answer : e.Answer, isConnect ⟨e, answer⟩ = false)
    (hincoming : ∀ answer : e.Answer, incoming ⟨e, answer⟩ = []) :
    Guarantees C K frame (Coroutine.ask (S := nodeSignature) e) fun new _ => Reads [] new := by
  refine guarantees_ask hC he fun answer => ?_
  rw [← hincoming answer]
  exact Reads.exchange (hconnect answer)

theorem guarantees_streamRead (hC : TransferContract H C K) (n : Nat) :
    Guarantees C K frame (streamRead n) fun new bytes => Reads bytes.val new :=
  @guarantees_ask H C K frame hC (.streamRead n) trivial _ fun answer =>
    @Reads.exchange (.streamRead n) answer rfl

theorem guarantees_streamWrite (hC : TransferContract H C K) (bytes : Bytes) :
    Guarantees C K frame (streamWrite bytes) fun new _ => Reads [] new :=
  guarantees_quiet hC trivial (fun _ => rfl) fun _ => rfl

theorem guarantees_streamClose (hC : TransferContract H C K) :
    Guarantees C K frame streamClose fun new _ => Reads [] new :=
  guarantees_quiet hC trivial (fun _ => rfl) fun _ => rfl

theorem guarantees_reserve (hC : TransferContract H C K) (n : Nat) :
    Guarantees C K frame (reserve n) fun new _ => Reads [] new :=
  guarantees_quiet hC trivial (fun _ => rfl) fun _ => rfl

theorem guarantees_sleepFor (hC : TransferContract H C K) (ms : Nat) :
    Guarantees C K frame (sleepFor ms) fun new _ => Reads [] new :=
  guarantees_quiet hC trivial (fun _ => rfl) fun _ => rfl

theorem guarantees_onTransfer (hC : TransferContract H C K) {α : Type}
    {f : TransferManager → α × TransferManager} {Q : List (Event nodeSignature) → α → Prop}
    (hQ : ∀ t, Q [] (f t).1) : Guarantees C K frame (onTransfer f) Q := by
  refine guarantees_atomically ?_ ?_ ?_ ?_
  · intro h s value s' hf
    cases hf
    exact hC.changes h s _ s.discovery
  · intro s value s' hf hs
    cases hf
    exact hC.holds frame s _ s.discovery hs
  · intro h s value s' hf hs
    cases hf
    exact hC.knows h frame s _ s.discovery hs
  · intro s value s' hf
    cases hf
    exact hQ s.transfer

theorem guarantees_closeWith (hC : TransferContract H C K) {α : Type} (result : α) :
    Guarantees C K frame (closeWith result) fun new value => value = result ∧ Reads [] new := by
  refine Guarantees.bind (guarantees_streamClose hC) ?_
  intro new _ hnew
  exact guarantees_pure ⟨rfl, by simpa using hnew⟩

/-! ## Framing -/

theorem guarantees_readLoop (hC : TransferContract H C K) (n : Nat) {rounds : Nat} {got : Bytes}
    (hgot : got.length ≤ n) :
    Guarantees C K frame (readLoop n rounds got) fun new bytes =>
      bytes.length ≤ n ∧ ∃ more, bytes = got ++ more ∧ Reads more new := by
  induction rounds generalizing got with
  | zero => exact guarantees_pure ⟨hgot, [], by simp, Reads.nil⟩
  | succ rounds ih =>
      unfold readLoop
      split
      · refine Guarantees.bind (guarantees_streamRead hC _) ?_
        intro new r hr
        have hmore : (got ++ r.val).length ≤ n := by
          have := r.property
          rw [List.length_append]
          omega
        split
        · rename_i hempty
          rw [List.isEmpty_iff.mp hempty] at hr
          exact guarantees_pure ⟨hgot, [], by simp, by simpa using hr⟩
        · refine (ih hmore).mono ?_
          rintro new' bytes ⟨hlength, more, rfl, hreads⟩
          exact ⟨hlength, r.val ++ more, by simp, hr.append hreads⟩
      · exact guarantees_pure ⟨hgot, [], by simp, Reads.nil⟩

theorem guarantees_readExact (hC : TransferContract H C K) (n : Nat) :
    Guarantees C K frame (readExact n) fun new bytes => bytes.length ≤ n ∧ Reads bytes new := by
  refine (guarantees_readLoop hC n (show ([] : Bytes).length ≤ n from Nat.zero_le n)).mono ?_
  rintro new bytes ⟨hlength, more, rfl, hreads⟩
  exact ⟨hlength, hreads⟩

theorem guarantees_writeLoop (hC : TransferContract H C K) (rounds : Nat) (rest : Bytes) :
    Guarantees C K frame (writeLoop rounds rest) fun new _ => Reads [] new := by
  induction rounds generalizing rest with
  | zero => exact guarantees_pure Reads.nil
  | succ rounds ih =>
      unfold writeLoop
      split
      · exact guarantees_pure Reads.nil
      · refine Guarantees.bind (guarantees_streamWrite hC rest) ?_
        intro new r hr
        split
        · exact guarantees_pure (by simpa using hr)
        · exact (ih _).mono fun new' _ hnew' => hr.append hnew'

theorem guarantees_writeMessage (hC : TransferContract H C K) (header : ChunkMessageHeader)
    (chunkId : Bytes) :
    Guarantees C K frame (writeMessage header chunkId) fun new _ => Reads [] new := by
  refine Guarantees.bind (guarantees_writeLoop hC _ _) ?_
  intro new written hnew
  split
  · exact (guarantees_writeLoop hC _ _).mono fun new' _ hnew' => hnew.append hnew'
  · exact guarantees_pure (by simpa using hnew)

theorem guarantees_readHeader (hC : TransferContract H C K) :
    Guarantees C K frame readHeader fun new result =>
      ∀ header, result = some header → ∃ wire, header = headerFromWire wire ∧
        Reads wire.val new := by
  refine Guarantees.bind (guarantees_readExact hC _) ?_
  rintro new bytes ⟨-, hreads⟩
  split
  · rename_i hlength
    refine guarantees_pure ?_
    rintro header hheader
    cases hheader
    rw [List.append_nil]
    exact ⟨⟨bytes, hlength⟩, rfl, hreads⟩
  · exact guarantees_pure fun header hheader => nomatch hheader

theorem guarantees_acquire (hC : TransferContract H C K) (direction : Direction) (bytes : Nat) :
    Guarantees C K frame (acquire direction bytes) fun new _ => Reads [] new := by
  refine Guarantees.bind
    (guarantees_onTransfer hC (Q := fun new _ => Reads [] new) fun _ => Reads.nil) ?_
  intro new wait hnew
  cases wait with
  | none => exact guarantees_pure (by simpa using hnew)
  | some ms =>
      exact (guarantees_sleepFor hC ms).mono fun new' _ hnew' => hnew.append hnew'

/-! ## One peer -/

def ReceiveResult (data : Bytes) (total : Nat) (new : List (Event nodeSignature)) :
    Except PeerDownloadResult Bytes → Prop
  | .error result => result.success = false
  | .ok all => all.length = total ∧ ∃ more, all = data ++ more ∧ Reads more new

theorem guarantees_receiveData (hC : TransferContract H C K) (ctx total : Nat) {rounds : Nat}
    {data : Bytes} (hrounds : total ≤ data.length + rounds) (hdata : data.length ≤ total) :
    Guarantees C K frame (receiveData ctx total rounds data) (ReceiveResult data total) := by
  induction rounds generalizing data with
  | zero => exact guarantees_pure ⟨by omega, [], by simp, Reads.nil⟩
  | succ rounds ih =>
      unfold receiveData
      split
      · refine Guarantees.bind
          (guarantees_onTransfer hC (Q := fun new _ => Reads [] new) fun _ => Reads.nil) ?_
        intro new stopped hnew
        split
        · refine (guarantees_closeWith hC _).mono ?_
          rintro new' result ⟨rfl, -⟩
          rfl
        · refine Guarantees.bind (guarantees_acquire hC _ _) ?_
          intro new₂ _ hnew₂
          refine Guarantees.bind (guarantees_readExact hC _) ?_
          rintro new₃ got ⟨hlength, hreads⟩
          split
          · refine (guarantees_closeWith hC _).mono ?_
            rintro new' result ⟨rfl, -⟩
            rfl
          · rename_i hgot
            have hpos : 0 < got.length := List.length_pos_iff.mpr (by simpa using hgot)
            have hsum : (data ++ got).length = data.length + got.length := List.length_append
            refine (ih (by omega) (by omega)).mono ?_
            intro new' result hresult
            cases result with
            | error r => exact hresult
            | ok all =>
                obtain ⟨hall, more, rfl, hmore⟩ := hresult
                refine ⟨hall, got ++ more, by simp, ?_⟩
                have := hnew.append (hnew₂.append (hreads.append hmore))
                simpa using this
      · exact guarantees_pure ⟨by omega, [], by simp, Reads.nil⟩

theorem verifyData_success {header : ChunkMessageHeader} {expectedSha256 data : Bytes}
    (h : (verifyData H header expectedSha256 data).success = true) :
    (verifyData H header expectedSha256 data).data = data ∧ header.hash = H.digest data ∧
      (expectedSha256 ≠ [] → H.hex data = expectedSha256) := by
  unfold verifyData at h ⊢
  split at h
  · cases h
  · rename_i hdigest
    split at h
    · cases h
    · rename_i hexpected
      rw [if_neg hdigest, if_neg hexpected]
      refine ⟨rfl, by simpa using (not_not.mp hdigest).symm, fun hne => ?_⟩
      simpa [hne] using hexpected

/-- Behind an acceptable header, success means that the rest of a complete
response came in. -/
theorem guarantees_receiveResponse (hC : TransferContract H C K) (ctx : Nat)
    (expectedSha256 : Bytes) (header : ChunkMessageHeader) :
    Guarantees C K frame (receiveResponse H ctx expectedSha256 header) fun new result =>
      result.success = true → (expectedSha256 ≠ [] → H.hex result.data = expectedSha256) ∧
        ∃ id, Reads (id ++ result.data) new ∧ id.length = echoedLength header ∧
          header.dataLength.toNat = result.data.length ∧ header.hash = H.digest result.data := by
  unfold receiveResponse
  refine Guarantees.bind (guarantees_readExact hC _) ?_
  rintro new id ⟨-, hid⟩
  split
  · refine (guarantees_closeWith hC _).mono ?_
    rintro new' result ⟨rfl, -⟩ hsuccess
    cases hsuccess
  · rename_i hlength
    refine Guarantees.bind (guarantees_reserve hC _) ?_
    intro new₂ allocated hnew₂
    split
    · refine guarantees_pure fun hsuccess => ?_
      cases hsuccess
    · refine Guarantees.bind (guarantees_receiveData hC ctx _ (by simp) (Nat.zero_le _)) ?_
      intro new₃ outcome houtcome
      cases outcome with
      | error r =>
          refine guarantees_pure fun hsuccess => ?_
          rw [houtcome] at hsuccess
          cases hsuccess
      | ok data =>
          obtain ⟨htotal, more, rfl, hmore⟩ := houtcome
          refine Guarantees.bind (guarantees_streamClose hC) ?_
          intro new₄ _ hnew₄
          refine guarantees_pure fun hsuccess => ?_
          obtain ⟨hsame, hdigest, hexpected⟩ := verifyData_success hsuccess
          rw [hsame]
          refine ⟨hexpected, id, ?_, not_not.mp hlength, htotal.symm, hdigest⟩
          have := hid.append (hnew₂.append (hmore.append hnew₄))
          simpa using this

theorem guarantees_downloadFromPeer (hC : TransferContract H C K) (ctx : Nat) (peer : PeerNode)
    (expectedSha256 : Bytes) :
    Guarantees C K frame (downloadFromPeer H ctx peer expectedSha256) fun new result =>
      result.success = true → Delivered H peer expectedSha256 (exchangesOf new) result.data := by
  have hfailed : ∀ {Q : List (Event nodeSignature) → PeerDownloadResult → Prop},
      (∀ new, Q new {}) → Guarantees C K frame (closeWith ({} : PeerDownloadResult)) Q := by
    intro Q hQ
    refine (guarantees_closeWith hC _).mono ?_
    rintro new result ⟨rfl, -⟩
    exact hQ new
  unfold downloadFromPeer
  refine Guarantees.bind (@guarantees_ask H C K frame hC
    (.tcpConnect peer.address peer.port) trivial
    (fun new connected => connected = true →
      new = [.external (⟨.tcpConnect peer.address peer.port, true⟩ : NetExchange)])
    fun connected h => by cases h; rfl) ?_
  intro new connected hconnected
  split
  · exact guarantees_pure fun hsuccess => nomatch hsuccess
  · rename_i hconnect
    have hopen : (connected : Bool) = true := by simpa using hconnect
    rw [hconnected hopen]
    refine Guarantees.bind
      (guarantees_onTransfer hC (Q := fun new _ => Reads [] new) fun _ => Reads.nil) ?_
    intro new₂ context hnew₂
    refine Guarantees.bind (guarantees_writeMessage hC _ _) ?_
    intro new₃ sent hnew₃
    split
    · exact hfailed fun _ hsuccess => nomatch hsuccess
    · refine Guarantees.bind (guarantees_readHeader hC) ?_
      intro new₄ header hheader
      cases header with
      | none => exact hfailed fun _ hsuccess => nomatch hsuccess
      | some header =>
          simp only
          split
          · exact hfailed fun _ hsuccess => nomatch hsuccess
          · rename_i hkind
            simp only [not_or, not_not] at hkind
            refine (guarantees_receiveResponse hC ctx expectedSha256 header).mono ?_
            intro new₅ result hresult hsuccess
            obtain ⟨hexpected, id, hreads, hid, hlength, hhash⟩ := hresult hsuccess
            obtain ⟨wire, hwire, hheaderReads⟩ := hheader header rfl
            rw [← headerBytes_headerFromWire, ← hwire] at hheaderReads
            have hall := hnew₂.append (hnew₃.append (hheaderReads.append hreads))
            refine ⟨hexpected, [], exchangesOf (new₂ ++ (new₃ ++ (new₄ ++ new₅))), rfl, hall.quiet,
              header, id, ?_, hkind.1, hkind.2, hid, hlength, hhash⟩
            rw [hall.received]
            simp

/-! ## The race -/

def JoinedFrom (H : Sha256) (peers : List PeerNode) (expectedSha256 : Bytes)
    (events : List (Event nodeSignature)) (data : Bytes) : Prop :=
  ∃ peer ∈ peers, ∃ id ctx finished,
    Event.joined id (Job.downloadFromPeer ctx peer expectedSha256) finished ∈ events ∧
      Delivered H peer expectedSha256 finished.exchanges data

def CameFrom (H : Sha256) (peers : List PeerNode) (expectedSha256 : Bytes)
    (events : List (Event nodeSignature)) (data : Bytes) : Prop :=
  JoinedFrom H peers expectedSha256 events data ∨
    ∃ peer ∈ peers, Delivered H peer expectedSha256 (exchangesOf events) data

theorem JoinedFrom.mono {peers peers' : List PeerNode} {expectedSha256 data : Bytes}
    {events events' : List (Event nodeSignature)}
    (h : JoinedFrom H peers expectedSha256 events data)
    (hpeers : peers ⊆ peers') (hevents : events ⊆ events') :
    JoinedFrom H peers' expectedSha256 events' data := by
  obtain ⟨peer, hpeer, id, ctx, finished, hmem, hdelivered⟩ := h
  exact ⟨peer, hpeers hpeer, id, ctx, finished, hevents hmem, hdelivered⟩

theorem CameFrom.prepend {peers peers' : List PeerNode} {expectedSha256 data : Bytes}
    {events : List (Event nodeSignature)} (h : CameFrom H peers expectedSha256 events data)
    (hpeers : peers ⊆ peers') (earlier : List (Event nodeSignature)) :
    CameFrom H peers' expectedSha256 (earlier ++ events) data := by
  rcases h with h | ⟨peer, hpeer, hdelivered⟩
  · exact Or.inl (h.mono hpeers (List.subset_append_right _ _))
  · refine Or.inr ⟨peer, hpeers hpeer, ?_⟩
    rw [exchangesOf_append]
    exact hdelivered.prepend _

theorem CameFrom.hex {peers : List PeerNode} {expectedSha256 data : Bytes}
    {events : List (Event nodeSignature)} (h : CameFrom H peers expectedSha256 events data)
    (hexpected : expectedSha256 ≠ []) : H.hex data = expectedSha256 := by
  rcases h with ⟨peer, -, id, ctx, finished, -, hdelivered⟩ | ⟨peer, -, hdelivered⟩
  · exact hdelivered.1 hexpected
  · exact hdelivered.1 hexpected

theorem CameFrom.ne_nil {peers : List PeerNode} {expectedSha256 data : Bytes}
    {events : List (Event nodeSignature)} (h : CameFrom H peers expectedSha256 events data) :
    events ≠ [] := by
  rintro rfl
  rcases h with ⟨peer, -, id, ctx, finished, hmem, -⟩ | ⟨peer, -, -, before, after, hnil, -⟩
  · cases hmem
  · simp [exchangesOf] at hnil

theorem guarantees_spawnDownloads (hC : TransferContract H C K) (ctx : Nat)
    (expectedSha256 : Bytes) (peers : List PeerNode) :
    Guarantees C K frame (spawnDownloads ctx expectedSha256 peers) fun _ handles =>
      handles.map Prod.snd = peers := by
  induction peers with
  | nil => exact guarantees_pure rfl
  | cons peer peers ih =>
      refine Guarantees.bind (guarantees_await (Q := fun _ _ => True)
        (hC.allowed ctx peer expectedSha256) (fun h s reply => hC.rely h frame s _ reply trivial)
        fun id _ => guarantees_pure trivial) ?_
      intro new id _
      refine Guarantees.bind ih ?_
      intro new₂ handles hhandles
      exact guarantees_pure (by rw [List.map_cons, hhandles])

theorem guarantees_joinDownload (hC : TransferContract H C K) (ctx : Nat)
    (expectedSha256 : Bytes) (handle : Nat × PeerNode) :
    Guarantees C K frame (joinDownload ctx expectedSha256 handle) fun new result =>
      result.success = true → JoinedFrom H [handle.2] expectedSha256 new result.data := by
  refine Guarantees.bind (guarantees_await (Q := fun new finished =>
      JoinDelivers H handle.2 expectedSha256 finished ∧
        new = [.joined handle.1 (Job.downloadFromPeer ctx handle.2 expectedSha256) finished])
    trivial (fun h s reply => hC.rely h frame s _ reply trivial) ?_) ?_
  · rintro finished ⟨h, s, hadmits⟩
    exact guarantees_pure ⟨hC.joined h frame s _ _ _ _ finished hadmits, rfl⟩
  rintro new finished ⟨hdelivers, rfl⟩
  split
  · rename_i result hresult
    refine guarantees_pure fun hsuccess => ?_
    exact ⟨handle.2, by simp, handle.1, ctx, finished, by simp,
      hdelivers result hresult hsuccess⟩
  · exact guarantees_diverge

theorem guarantees_adopt (hC : TransferContract H C K) (ctx : Nat) (result : PeerDownloadResult) :
    Guarantees C K frame (adopt ctx result) fun new _ => new = [] :=
  guarantees_onTransfer hC fun _ => rfl

theorem guarantees_joinDownloads (hC : TransferContract H C K) (ctx : Nat)
    (expectedSha256 : Bytes) (handles : List (Nat × PeerNode)) (winner : Option Bytes) :
    Guarantees C K frame (joinDownloads ctx expectedSha256 handles winner) fun new result =>
      ∀ data, result = some data → winner = some data ∨
        JoinedFrom H (handles.map Prod.snd) expectedSha256 new data := by
  induction handles generalizing winner with
  | nil => exact guarantees_pure fun data hdata => Or.inl hdata
  | cons handle handles ih =>
      refine Guarantees.bind (guarantees_joinDownload hC ctx expectedSha256 handle) ?_
      intro new result hresult
      have hlater : ∀ {new' data}, JoinedFrom H (handles.map Prod.snd) expectedSha256 new' data →
          JoinedFrom H ((handle :: handles).map Prod.snd) expectedSha256 (new ++ new') data :=
        fun h => h.mono (by simp) (List.subset_append_right _ _)
      split
      · rename_i hwins
        simp only [Bool.and_eq_true] at hwins
        refine Guarantees.bind (guarantees_adopt hC ctx result) ?_
        rintro new₂ _ rfl
        refine (ih (some result.data)).mono fun new' value hvalue data hdata => Or.inr ?_
        rcases hvalue data hdata with hwinner | hjoined
        · cases hwinner
          exact (hresult hwins.2).mono (by simp) (List.subset_append_left _ _)
        · exact hlater hjoined
      · refine (ih winner).mono fun new' value hvalue data hdata => ?_
        exact (hvalue data hdata).imp id hlater

theorem guarantees_tryFallback (hC : TransferContract H C K) (ctx : Nat) (expectedSha256 : Bytes)
    (peers : List PeerNode) :
    Guarantees C K frame (tryFallback H ctx expectedSha256 peers) fun new result =>
      ∀ data, result = some data → CameFrom H peers expectedSha256 new data := by
  induction peers with
  | nil => exact guarantees_pure fun data hdata => nomatch hdata
  | cons peer peers ih =>
      refine Guarantees.bind
        (guarantees_onTransfer hC (Q := fun new _ => new = []) fun _ => rfl) ?_
      rintro new stopped rfl
      split
      · exact guarantees_pure fun data hdata => nomatch hdata
      · refine Guarantees.bind (guarantees_downloadFromPeer hC ctx peer expectedSha256) ?_
        intro new₂ result hresult
        split
        · rename_i hsuccess
          refine Guarantees.bind (guarantees_adopt hC ctx result) ?_
          rintro new₃ _ rfl
          refine guarantees_pure fun data hdata => Or.inr ?_
          cases hdata
          exact ⟨peer, by simp, by simpa using hresult hsuccess⟩
        · refine ih.mono fun new' value hvalue data hdata => ?_
          exact (hvalue data hdata).prepend (by simp) new₂

/-! ## The whole download -/

theorem selectKPeers_perm (t : TransferManager) (discovery : NodeDiscovery)
    (candidates : List PeerNode) (k : UInt32) (mode : TransferMode) :
    ∃ rest, ((t.selectKPeers discovery candidates k mode).1 ++ rest).Perm candidates := by
  have htake : ∀ (ordered : List PeerNode) n, ordered.Perm candidates →
      ∃ rest, (ordered.take n ++ rest).Perm candidates := fun ordered n hperm =>
    ⟨ordered.drop n, by rwa [List.take_append_drop]⟩
  unfold TransferManager.selectKPeers
  split
  · exact ⟨candidates, List.Perm.refl _⟩
  · cases mode with
    | nearestFirst => exact htake _ _ (t.sort.perm _ _)
    | fastestFirst => exact htake _ _ (t.sort.perm _ _)
    | rarestFirst =>
        simp only
        split
        · exact htake _ _ (t.sort.perm _ _)
        · exact htake _ _ ((t.rng _).perm _)

theorem selectKPeers_subset (t : TransferManager) (discovery : NodeDiscovery)
    (candidates : List PeerNode) (k : UInt32) (mode : TransferMode) :
    (t.selectKPeers discovery candidates k mode).1 ⊆ candidates := by
  obtain ⟨rest, hperm⟩ := selectKPeers_perm t discovery candidates k mode
  exact List.Subset.trans (List.subset_append_left _ rest) hperm.subset

/-- Who is asked: candidates only, and these are the given sources if there are
any. -/
theorem beginDownload_candidates {request : TransferRequest} {s : Node} {ctx : Nat}
    {candidates selected : List PeerNode}
    (h : (beginDownload request s).1 = .race ctx candidates selected) :
    selected ⊆ candidates ∧ (request.sources ≠ [] → candidates = request.sources) := by
  simp only [beginDownload] at h
  split at h
  · cases h
  · split at h
    · cases h
    · simp only [Begun.race.injEq] at h
      obtain ⟨-, rfl, rfl⟩ := h
      refine ⟨selectKPeers_subset _ _ _ _ _, fun hsources => ?_⟩
      rw [findCandidates, if_pos (by simpa using hsources)]

theorem beginDownload_keeps (request : TransferRequest) (s : Node) :
    ∃ transfer discovery, (beginDownload request s).2 =
      { s with transfer := transfer, discovery := discovery } := by
  simp only [beginDownload]
  split
  · exact ⟨_, _, rfl⟩
  · split
    · exact ⟨_, _, rfl⟩
    · exact ⟨_, _, rfl⟩

theorem guarantees_beginDownload (hC : TransferContract H C K) (request : TransferRequest) :
    Guarantees C K frame
      (atomically (S := nodeSignature) fun s : Node => some (beginDownload request s))
      fun new begun => new = [] ∧ ∃ s, (beginDownload request s).1 = begun := by
  have hkeeps : ∀ (s : Node) begun (s' : Node), some (beginDownload request s) = some (begun, s') →
      ∃ transfer discovery, s' = { s with transfer := transfer, discovery := discovery } := by
    intro s begun s' hbegun
    obtain ⟨transfer, discovery, hkept⟩ := beginDownload_keeps request s
    rw [Option.some.inj hbegun] at hkept
    exact ⟨transfer, discovery, hkept⟩
  refine guarantees_atomically ?_ ?_ ?_ ?_
  · intro h s begun s' hbegun
    obtain ⟨transfer, discovery, rfl⟩ := hkeeps s begun s' hbegun
    exact hC.changes h s transfer discovery
  · intro s begun s' hbegun hs
    obtain ⟨transfer, discovery, rfl⟩ := hkeeps s begun s' hbegun
    exact hC.holds frame s transfer discovery hs
  · intro h s begun s' hbegun hs
    obtain ⟨transfer, discovery, rfl⟩ := hkeeps s begun s' hbegun
    exact hC.knows h frame s transfer discovery hs
  · intro s begun s' hbegun
    exact ⟨rfl, s, congrArg Prod.fst (Option.some.inj hbegun)⟩

/-- What comes back is the data of the winner of the race or of a fallback peer. -/
theorem guarantees_raceDownloads (hC : TransferContract H C K) (ctx : Nat)
    (expectedSha256 : Bytes) {candidates selected : List PeerNode}
    (hselected : selected ⊆ candidates) :
    Guarantees C K frame (raceDownloads H ctx expectedSha256 candidates selected)
      fun new result => ∀ data, result = some data →
        CameFrom H candidates expectedSha256 new data := by
  refine Guarantees.bind (guarantees_spawnDownloads hC ctx expectedSha256 selected) ?_
  intro new handles hhandles
  refine Guarantees.bind (guarantees_joinDownloads hC ctx expectedSha256 handles none) ?_
  intro new₂ winner hwinner
  cases winner with
  | some data =>
      refine guarantees_pure fun data' hdata => ?_
      rcases hwinner data' hdata with hnone | hjoined
      · cases hnone
      · rw [hhandles] at hjoined
        exact Or.inl (hjoined.mono hselected (by simp))
  | none =>
      refine (guarantees_tryFallback hC ctx expectedSha256 _).mono ?_
      intro new₃ result hresult data hdata
      have := (hresult data hdata).prepend (List.filter_subset_self candidates) (new ++ new₂)
      rwa [List.append_assoc] at this

theorem guarantees_downloadChunk (hC : TransferContract H C K) (request : TransferRequest) :
    Guarantees C K frame (downloadChunk H request) fun new result =>
      ∀ data, result = some data → ∃ peers, (request.sources ≠ [] → peers = request.sources) ∧
        CameFrom H peers request.expectedSha256 new data := by
  refine Guarantees.bind (guarantees_onTransfer hC (Q := fun new _ => new = []) fun _ => rfl) ?_
  rintro new running rfl
  split
  · exact guarantees_pure fun data hdata => nomatch hdata
  refine Guarantees.bind (guarantees_beginDownload hC request) ?_
  rintro new begun ⟨rfl, s, hbegun⟩
  cases begun with
  | unreserved => exact guarantees_raise fun h s => hC.throws h frame s
  | nobody => exact guarantees_pure fun data hdata => nomatch hdata
  | race ctx candidates selected =>
      obtain ⟨hselected, hsources⟩ := beginDownload_candidates hbegun
      refine Guarantees.bind (guarantees_raceDownloads hC ctx _ hselected) ?_
      intro new₂ result hresult
      refine Guarantees.bind
        (guarantees_onTransfer hC (Q := fun new _ => new = []) fun _ => rfl) ?_
      rintro new₃ ended rfl
      split
      · refine guarantees_pure fun data hdata => ⟨candidates, hsources, ?_⟩
        simpa using hresult data hdata
      · exact guarantees_raise fun h s => hC.throws h frame s

end Routines

/-! ## Every run of a node -/

section Runs

variable {H : Sha256} {fuel : Nat} {handler : RequestHandler}

def DownloadJoined (H : Sha256) : Job → Finished nodeSignature → Prop
  | .downloadFromPeer _ peer expectedSha256, finished =>
      JoinDelivers H peer expectedSha256 finished
  | _, _ => True

theorem downloadJoined_thrown (job : Job) (exchanges : List NetExchange) :
    DownloadJoined H job ⟨exchanges, .thrown⟩ := by
  cases job with
  | downloadFromPeer ctx peer expectedSha256 => exact fun result hresult => nomatch hresult
  | _ => trivial

def DownloadPost (H : Sha256) : Job → List (Event nodeSignature) → JobResult → Prop
  | .downloadFromPeer _ peer expectedSha256, h, result =>
      JoinDelivers H peer expectedSha256 ⟨exchangesOf h, result⟩
  | .downloadChunk request, h, result =>
      ∀ data, result = .chunk (some data) →
        ∃ peers, (request.sources ≠ [] → peers = request.sources) ∧
          CameFrom H peers request.expectedSha256 h data
  | _, _, _ => True

def deliverySpec (H : Sha256) : Spec nodeSignature where
  holds _ _ := True
  admits _ _ _ _ w reply :=
    match w, reply with
    | .join _ job, finished => DownloadJoined H job finished
    | .external _, _ | .spawn _, _ => True
  changes _ _ _ := True
  allowed _ := True
  post job h _ result _ := DownloadPost H job h result
  joined := DownloadJoined H

theorem transferContract_delivery (job : Job) :
    TransferContract H ((deliverySpec H).contract job) fun _ _ _ => True where
  holds _ _ _ _ _ := trivial
  changes _ _ _ _ := trivial
  knows _ _ _ _ _ _ := trivial
  rely _ _ _ _ _ _ _ := trivial
  allowed _ _ _ := trivial
  joined _ _ _ _ _ _ _ _ h := h
  throws h frame s _ := by
    change DownloadPost H job h .thrown
    cases job with
    | downloadFromPeer ctx peer expectedSha256 => exact fun result hresult => nomatch hresult
    | downloadChunk request => exact fun data hresult => nomatch hresult
    | _ => trivial

theorem deliverySpec_valid : (deliverySpec H).Valid (nodeProgram H fuel handler) where
  entry job s _ _ := by
    cases job with
    | downloadFromPeer ctx peer expectedSha256 =>
        have hC := transferContract_delivery (H := H) (.downloadFromPeer ctx peer expectedSha256)
        refine (guarantees_downloadFromPeer hC ctx peer expectedSha256).sat trivial |>.seq ?_
        rintro h frame result s' ⟨-, new, rfl, -, -, hdelivered⟩ result' hresult hsuccess
        cases hresult
        exact hdelivered hsuccess
    | downloadChunk request =>
        have hC := transferContract_delivery (H := H) (.downloadChunk request)
        refine (guarantees_downloadChunk hC request).sat trivial |>.seq ?_
        rintro h frame result s' ⟨-, new, rfl, -, -, hcame⟩ data hresult
        cases hresult
        exact hcame data rfl
    | _ =>
        exact sat_trivial (fun _ _ => trivial) (fun _ _ _ => trivial) (fun _ => trivial)
          (fun _ _ _ => trivial) (fun _ _ _ _ => trivial) _
  changes_refl _ _ := trivial
  changes_trans _ _ _ _ _ _ := trivial
  shared_of_holds _ _ _ := trivial
  shared_of_post _ _ _ _ _ _ := trivial
  joined_of_post job h frame result s hpost := by
    cases job with
    | downloadFromPeer ctx peer expectedSha256 => exact hpost
    | _ => trivial

def Delivers (H : Sha256) (fuel : Nat) (handler : RequestHandler) (sys : System nodeSignature) :
    Prop :=
  sys.Sound (deliverySpec H) (nodeProgram H fuel handler) ∧
    ∀ task ∈ sys.tasks, ∀ result, task.result? = some result →
      DownloadPost H task.job task.history result

theorem Delivers.step {sys sys' : System nodeSignature} {action : Action nodeSignature}
    (h : Delivers H fuel handler sys)
    (hstep : (nodeProgram H fuel handler).step sys action = some sys') :
    Delivers H fuel handler sys' := by
  have hmeets : StepMeets (deliverySpec H) (nodeProgram H fuel handler) sys action sys'.shared :=
    { start := fun _ _ => trivial
      admits := by
        intro id reply task w next _ _ _ _ r hr
        cases w with
        | join id job => exact hr
        | external e => trivial
        | spawn job => trivial
      stable := by
        intros
        trivial }
  obtain ⟨hsound, -, hpost⟩ := h.1.step deliverySpec_valid hstep hmeets
  refine ⟨hsound, fun task htask result hresult => ?_⟩
  obtain ⟨id, hid⟩ := List.mem_iff_getElem?.mp htask
  rcases hpost id task result hid hresult with hold | hnew
  · exact h.2 task (List.mem_of_getElem? hold) result hresult
  · exact hnew

/-- In every run of a node, whatever the peers send and in whatever order the
tasks go on: if `download_chunk` returns data, one connection of one peer has
carried it as the complete payload of a Response with its hash, to the task
itself or to a download it has joined. -/
theorem downloadChunk_delivers {node : Node} {actions : List (Action nodeSignature)}
    {sys : System nodeSignature}
    (hrun : runSteps (nodeProgram H fuel handler).step (.initial node) actions = some sys)
    {task : Task nodeSignature} {request : TransferRequest} {data : Bytes}
    (htask : task ∈ sys.tasks) (hjob : task.job = .downloadChunk request)
    (hresult : task.result? = some (.chunk (some data))) :
    ∃ carrier ∈ sys.tasks, ∃ peer, (request.sources ≠ [] → peer ∈ request.sources) ∧
      (carrier = task ∨ ∃ ctx, carrier.job = .downloadFromPeer ctx peer request.expectedSha256) ∧
      Delivered H peer request.expectedSha256 (exchangesOf carrier.history) data := by
  have hinitial : Delivers H fuel handler (.initial node) :=
    ⟨System.Sound.initial trivial, by simp [System.initial]⟩
  obtain ⟨hsound, hpost⟩ := runSteps_invariant (P := fun _ _ => True)
    (fun _ _ _ h _ hstep => h.step hstep) hinitial (EveryStep.of_forall fun _ _ => trivial) hrun
  have hdone := hpost task htask _ hresult
  rw [hjob] at hdone
  obtain ⟨peers, hpeers, hcame⟩ := hdone data rfl
  have hsource : ∀ peer ∈ peers, request.sources ≠ [] → peer ∈ request.sources := by
    intro peer hpeer hsources
    rwa [← hpeers hsources]
  rcases hcame with ⟨peer, hpeer, id, ctx, finished, hjoined, hdelivered⟩ |
    ⟨peer, hpeer, hdelivered⟩
  · obtain ⟨child, hchild, hchildJob, -, hexchanges⟩ :=
      hsound.joins task htask id _ finished hjoined
    refine ⟨child, List.mem_of_getElem? hchild, peer, hsource peer hpeer,
      Or.inr ⟨ctx, hchildJob⟩, ?_⟩
    rwa [hexchanges]
  · exact ⟨task, htask, peer, hsource peer hpeer, Or.inl rfl, hdelivered⟩

end Runs

/-! ## A node and its surroundings -/

def sampleTransfer : TransferManager where
  running := true
  selectionK := 5
  hasNodeDiscovery := true
  steady := fun _ => 0
  steadyTicks := 0
  sort := .insertion
  rng := fun _ => .id
  shuffles := 0
  stats := {}
  uploadLimiter := .new 0 0
  downloadLimiter := .new 0 0
  activeTransfers := ∅
  contexts := []
  savedProgress := ∅
  progressDir := ascii "/tmp/eliop2p_progress"
  progressFiles := .empty

def sampleNode : Node where
  cache := Cache.ChunkManager.sampleManager
  discovery := .new 50 (fun _ => 0) (fun _ => 0) fun _ => .id
  transfer := sampleTransfer

/-- Surroundings in which every connection and write succeeds, `read` comes in
on a stream, and the origin answers as given. -/
def answers (read : Bytes) (head : Option ObjectMetadata) (object : Nat → Nat → Option Bytes) :
    (e : External) → e.Answer
  | .tcpConnect _ _ => true
  | .streamRead n => ⟨read.take n, by simp⟩
  | .streamWrite bytes => Fin.last bytes.length
  | .streamClose => ()
  | .reserve _ => true
  | .sleepFor _ => ()
  | .lock _ => ()
  | .headObject _ _ => head
  | .getObject _ _ offset length => object offset length

def reads (id : Nat) (bytes : Bytes) : Action nodeSignature :=
  .resume id (answers bytes none fun _ _ => none)

def samplePeer : PeerNode := { nodeId := ascii "p", address := ascii "10.0.0.2", port := 9000 }

def sampleDownload : TransferRequest where
  chunkId := ascii "c"
  sources := [samplePeer]
  expectedSha256 := Cache.ChunkManager.sampleSha256.hex [1]

def sampleRace : List (Action nodeSignature) :=
  [.start (.downloadChunk sampleDownload), reads 0 [], reads 0 [], reads 1 [], reads 1 [],
    reads 1 [], reads 1 [],
    reads 1 (headerBytes (hashedHeader Cache.ChunkManager.sampleSha256 .response 1 1 4 [1])),
    reads 1 (ascii "c"), reads 1 [], reads 1 [1], reads 1 [], reads 0 []]

def returnedChunk (task : Task nodeSignature) : Option Bytes :=
  match task.result? with
  | some (.chunk data) => data
  | _ => none

theorem result_of_returnedChunk {task : Task nodeSignature} {data : Bytes}
    (h : returnedChunk task = some data) : task.result? = some (.chunk (some data)) := by
  unfold returnedChunk at h
  split at h
  · rename_i returned hresult
    rw [hresult, h]
  · cases h

def raceDownload : TransferRequest :=
  { sampleDownload with
    sources := [samplePeer, { nodeId := ascii "q", address := ascii "10.0.0.3", port := 9000 }] }

def answerWith (data : Bytes) : Bytes :=
  headerBytes (hashedHeader Cache.ChunkManager.sampleSha256 .response 1 1 4 data)

/-- Two peers race; the first one answers with another byte, the second one with the
chunk. -/
def twoPeerRace : List (Action nodeSignature) :=
  [.start (.downloadChunk raceDownload), reads 0 [], reads 0 [], reads 0 [], reads 1 [],
    reads 2 [], reads 1 [], reads 2 [], reads 1 [], reads 2 [], reads 1 [], reads 2 [],
    reads 1 (answerWith [2]), reads 2 (answerWith [1]), reads 2 (ascii "c"), reads 1 (ascii "c"),
    reads 2 [], reads 2 [1], reads 1 [], reads 2 [], reads 1 [2], reads 1 [], reads 0 [],
    reads 0 []]

theorem downloadChunk_delivers_twoPeerRace :
    ∃ sys task, runSteps (nodeProgram Cache.ChunkManager.sampleSha256 0 {}).step
        (.initial sampleNode) twoPeerRace = some sys ∧ task ∈ sys.tasks ∧
      task.result? = some (.chunk (some [1])) ∧
      ∃ carrier ∈ sys.tasks, ∃ peer, (raceDownload.sources ≠ [] → peer ∈ raceDownload.sources) ∧
        (carrier = task ∨
          ∃ ctx, carrier.job = .downloadFromPeer ctx peer raceDownload.expectedSha256) ∧
        Delivered Cache.ChunkManager.sampleSha256 peer raceDownload.expectedSha256
          (exchangesOf carrier.history) [1] := by
  have hreturns : ((runSteps (nodeProgram Cache.ChunkManager.sampleSha256 0 {}).step
      (.initial sampleNode) twoPeerRace).any fun sys => sys.tasks.any fun task =>
        decide (task.job = .downloadChunk raceDownload) &&
          decide (returnedChunk task = some [1])) = true := by
    decide +kernel
  obtain ⟨sys, hrun, hsys⟩ := (Option.any_eq_true _ _).mp hreturns
  simp only [List.any_eq_true, Bool.and_eq_true, decide_eq_true_eq] at hsys
  obtain ⟨task, htask, hjob, hreturned⟩ := hsys
  have hresult := result_of_returnedChunk hreturned
  exact ⟨sys, task, hrun, htask, hresult, downloadChunk_delivers hrun htask hjob hresult⟩

end ElioP2P.P2P
