import ElioP2P.P2P.Proofs.ChunkFrame

/-!
# The sections of a call of `download_chunk`

Whatever it is told, a call changes only what concerns its chunk.  When it
returns its chunk has no entry; with data, a peer has delivered the data in the
exchanges of the first download that was joined with success, or in those of the
call itself.  A call whose context nobody else writes has saved the size of the
data.  An exception that leaves a call behind its first section comes from the
removal of the temporary file, and the entry stays.
-/

namespace ElioP2P.P2P

open ElioP2P.Library ElioP2P.Library.Coroutine ElioP2P.Proxy

/-! ## The copy that a call adopts -/

def Told (H : Sha256) (w : Wait nodeSignature) (reply : w.Reply) : Prop :=
  match w, reply with
  | .join _ (.downloadFromPeer _ peer expectedSha256), finished =>
      ∃ result, finished.result = JobResult.peerDownload result ∧ Counted result ∧
        (result.success = true → Delivered H peer expectedSha256 finished.exchanges result.data)
  | .join _ _, _ => False
  | .external _, _ | .spawn _, _ => True

/-- A copy of a chunk: the context for which it was downloaded, and the
exchanges that have brought it. -/
structure Copy where
  ctx : Nat
  exchanges : List NetExchange
  result : PeerDownloadResult

def broughtBy : Event nodeSignature → Option Copy
  | .joined _ (.downloadFromPeer ctx _ _) ⟨exchanges, .peerDownload result⟩ =>
      if result.success then some ⟨ctx, exchanges, result⟩ else none
  | _ => none

def adopted (h : List (Event nodeSignature)) : Option Copy := h.findSome? broughtBy

/-- The exchanges that have brought the copy which a call returns. -/
def adoptedExchanges (h : List (Event nodeSignature)) : List NetExchange :=
  match adopted h with
  | some copy => copy.exchanges
  | none => exchangesOf h

theorem adopted_append (h new : List (Event nodeSignature)) :
    adopted (h ++ new) = (adopted h).or (adopted new) := List.findSome?_append

theorem adopted_append_of_some {h : List (Event nodeSignature)} {copy : Copy}
    (hcopy : adopted h = some copy) (new : List (Event nodeSignature)) :
    adopted (h ++ new) = some copy := by
  rw [adopted_append, hcopy, Option.some_or]

theorem adopted_concat_of_first {h : List (Event nodeSignature)} {event : Event nodeSignature}
    {copy : Copy} (hbefore : adopted h = none) (hevent : broughtBy event = some copy) :
    adopted (h ++ [event]) = some copy := by
  rw [adopted_append, hbefore]
  simp [adopted, hevent]

theorem adopted_concat_of_none {h : List (Event nodeSignature)} {event : Event nodeSignature}
    (hevent : broughtBy event = none) : adopted (h ++ [event]) = adopted h := by
  rw [adopted_append]
  simp [adopted, hevent]

def AdoptedDelivered (H : Sha256) (expectedSha256 : Bytes) (h : List (Event nodeSignature)) :
    Prop :=
  ∀ copy, adopted h = some copy → Counted copy.result ∧ copy.result.success = true ∧
    ∃ peer, Delivered H peer expectedSha256 copy.exchanges copy.result.data

theorem adoptedDelivered_of_eq {H : Sha256} {expectedSha256 : Bytes}
    {h h' : List (Event nodeSignature)} (hsame : adopted h' = adopted h)
    (hdelivered : AdoptedDelivered H expectedSha256 h) : AdoptedDelivered H expectedSha256 h' := by
  unfold AdoptedDelivered
  rwa [hsame]

def downloadedSize (t : TransferManager) (c : Nat) : Option Nat :=
  t.contexts[c]?.map (·.downloadedSize)

def SizeAgrees (c : Nat) (h : List (Event nodeSignature)) (t : TransferManager) : Prop :=
  ∀ copy, adopted h = some copy → downloadedSize t c = some copy.result.bytesDownloaded

/-- The size in the context `c`, in a section of a call that has adopted a copy:
it is set when the copy is adopted and is not touched later. -/
def SizeInSection (c : Nat) (h : List (Event nodeSignature)) (found s : TransferManager) : Prop :=
  ∀ copy, adopted h = some copy → copy.ctx = c ∧ downloadedSize s c =
    if (adopted h.dropLast).isNone then some copy.result.bytesDownloaded
    else downloadedSize found c

/-! ## A download as a task of its own -/

def DownloadEnds (H : Sha256) (peer : PeerNode) (expectedSha256 : Bytes)
    (h : List (Event nodeSignature)) (result : JobResult) : Prop :=
  connectsOf h = [endpoint peer] ∧ ∃ download, result = .peerDownload download ∧ Counted download ∧
    (download.success = true → Delivered H peer expectedSha256 (exchangesOf h) download.data)

def peerSections (H : Sha256) : Regime nodeSignature where
  begins _ := True
  admits _ _ w reply := Told H w reply
  throws _ _ _ := False
  leaves _ found s := Quiet found s
  waits _ _ w :=
    match w with
    | .external _ => True
    | .spawn _ | .join _ _ => False

/-! ## The regime of a call -/

/-- A section before the last one leaves the files alone, and behind the first
one also the table of transfers. -/
structure KeepsEntries (h : List (Event nodeSignature)) (t t' : TransferManager) : Prop where
  files : t'.progressFiles = t.progressFiles
  active : h ≠ [] → t'.activeTransfers = t.activeTransfers

def HasCopy (H : Sha256) (request : TransferRequest) (h : List (Event nodeSignature)) : Prop :=
  ∃ peer data, Delivered H peer request.expectedSha256 (adoptedExchanges h) data

/-- What an exception leaves behind that ends a call after its race: a peer has
delivered the chunk, and the temporary file could not be removed. -/
structure Aborts (H : Sha256) (request : TransferRequest) (h : List (Event nodeSignature))
    (found s : Node) : Prop where
  changes : ChangesOnly request.chunkId found.transfer s.transfer
  entry : s.transfer.activeTransfers = found.transfer.activeTransfers
  copy : HasCopy H request h
  refused : found.transfer.progressFiles.removable
    (found.transfer.tempPath request.chunkId) = false

/-- A call that downloads the chunk into context `c`; `alone` if nobody else
writes the size in the context. -/
def callSections (H : Sha256) (request : TransferRequest) (c : Nat) (alone : Prop) :
    Regime nodeSignature where
  begins _ := True
  admits h s w reply := (Owned s.transfer ∧ Owns s.transfer request.chunkId c ∧
    (alone → SizeAgrees c h s.transfer)) ∧ Told H w reply
  throws := Aborts H request
  leaves h found s := ChangesOnly request.chunkId found.transfer s.transfer ∧
    Owned s.transfer ∧ Owns s.transfer request.chunkId c ∧
    (alone → SizeAgrees c h s.transfer) ∧ KeepsEntries h found.transfer s.transfer
  waits _ _ w :=
    match w with
    | .external _ => True
    | .spawn job | .join _ job => ∃ c peer expectedSha256,
        job = .downloadFromPeer c peer expectedSha256

section Call

variable {H : Sha256} {request : TransferRequest} {expectedSha256 : Bytes} {c : Nat}
  {alone : Prop} {h : List (Event nodeSignature)} {found s : Node}

theorem leaves_of_admits {w : Wait nodeSignature} {reply : w.Reply} (event : Event nodeSignature)
    (hevent : broughtBy event = none) (h' : (callSections H request c alone).admits h s w reply) :
    (callSections H request c alone).leaves (h ++ [event]) s s := by
  obtain ⟨⟨howned, howns, hagrees⟩, -⟩ := h'
  refine ⟨ChangesOnly.refl _ _, howned, howns, fun halone => ?_, rfl, fun _ => rfl⟩
  unfold SizeAgrees
  rw [adopted_concat_of_none hevent]
  exact hagrees halone

theorem KeepsEntries.trans {t t' t'' : TransferManager} (hkeeps : KeepsEntries h t t')
    (hfiles : t''.progressFiles = t'.progressFiles)
    (hactive : t''.activeTransfers = t'.activeTransfers) : KeepsEntries h t t'' where
  files := hfiles.trans hkeeps.files
  active hlater := hactive.trans (hkeeps.active hlater)

theorem leaves_trans {t : TransferManager}
    (hs : (callSections H request c alone).leaves h found s)
    (hchanges : ChangesOnly request.chunkId s.transfer t)
    (hcontexts : t.contexts = s.transfer.contexts)
    (hfiles : t.progressFiles = s.transfer.progressFiles)
    (hactive : t.activeTransfers = s.transfer.activeTransfers) :
    (callSections H request c alone).leaves h found { s with transfer := t } := by
  obtain ⟨hbefore, howned, howns, hagrees, hkeeps⟩ := hs
  refine ⟨hbefore.trans hchanges, hchanges.owned howned, hchanges.owns _ _ howns,
    fun halone => ?_, hkeeps.trans hfiles hactive⟩
  unfold SizeAgrees downloadedSize
  rw [hcontexts]
  exact hagrees halone

theorem tolerates_callSections {J : List (Event nodeSignature) → Prop}
    (hJ : ∀ h (x : NetExchange), J h → J (h ++ [.external x])) :
    Tolerates (callSections H request c alone) J where
  starts _ _ _ _ hadmits := leaves_of_admits _ rfl hadmits
  quiet h found s s' hs hquiet := by
    have hchanges := hquiet.changesOnly request.chunkId
    obtain ⟨ticks, upload, download, rfl⟩ := hquiet
    exact leaves_trans hs hchanges rfl rfl rfl
  waits _ _ _ := trivial
  lasts h _ _ answer _ _ := hJ h ⟨_, answer⟩

theorem meets_downloadFromPeer_told {R : Regime nodeSignature}
    {J : List (Event nodeSignature) → Prop} (hR : Tolerates R J)
    (htold : ∀ h s w reply, R.admits h s w reply → Told H w reply) (ctx : Nat) (peer : PeerNode)
    (hs : R.leaves h found s)
    (hJ : ∀ s connected, R.admits h s (.external (.tcpConnect peer.address peer.port)) connected →
      J (h ++ [.external (⟨.tcpConnect peer.address peer.port, connected⟩ : NetExchange)])) :
    (downloadFromPeer H ctx peer expectedSha256).Meets R
      (fun h result found s => R.leaves h found s ∧ J h ∧ Counted result ∧
        (result.success = true → Delivered H peer expectedSha256 (exchangesOf h) result.data))
      h found s := by
  have hmeets := @meets_downloadFromPeer_tolerated R J H hR ctx peer expectedSha256 h found s hs hJ
  have hsat := (@guarantees_downloadFromPeer H _ _ none
    (transferContract_delivery .chunkConnection) ctx peer expectedSha256).sat (h := h)
      (s := s) trivial
  refine (hmeets.sat hsat fun h' frame s w reply hadmits => ⟨trivial, ?_⟩).mono ?_
  · have htells := htold h' s w reply hadmits
    cases w with
    | external e => trivial
    | spawn job => trivial
    | join id job =>
        cases job with
        | downloadFromPeer ctx peer expected =>
            obtain ⟨result, hresult, -, hdelivered⟩ := htells
            intro result' hresult' hsuccess
            rw [hresult] at hresult'
            cases hresult'
            exact hdelivered hsuccess
        | _ => exact htells.elim
  · rintro h' result found s ⟨⟨hleaves, hknown, hcounted⟩, frame, -, new, rfl, -, -, hdelivered⟩
    refine ⟨hleaves, hknown, hcounted, fun hsuccess => ?_⟩
    rw [exchangesOf_append]
    exact (hdelivered hsuccess).prepend _

theorem tolerates_peerSections (peer : PeerNode) :
    Tolerates (peerSections H) fun h => connectsOf h = [endpoint peer] where
  starts _ s _ _ _ := Quiet.refl s
  quiet _ _ _ _ hs hquiet := hs.trans hquiet
  waits _ _ _ := trivial
  lasts _ _ _ _ hquiet _ hconnects := by
    rw [connectsOf_append, hconnects, connectsOf_quiet hquiet, List.append_nil]

theorem goes_newDownload {fuel : Nat} {handler : RequestHandler} (ctx : Nat) (peer : PeerNode) :
    ((nodeProgram H fuel handler).newTask (.downloadFromPeer ctx peer expectedSha256)).Goes
      (peerSections H) (DownloadEnds H peer expectedSha256) := by
  refine Task.goes_newTask fun s _ => ?_
  refine Meets.seq (meets_downloadFromPeer_told (tolerates_peerSections peer) (fun _ _ _ _ => id)
    ctx peer (Quiet.refl s) fun _ connected _ => connectsOf_tcpConnect peer connected) ?_
  rintro h result found s ⟨hleaves, hconnects, hcounted, hdelivered⟩
  exact ⟨hleaves, hconnects, result, rfl, hcounted, hdelivered⟩

theorem meets_downloadFromPeer_call (ctx : Nat) (peer : PeerNode)
    (hs : (callSections H request c alone).leaves h found s) :
    (downloadFromPeer H ctx peer expectedSha256).Meets (callSections H request c alone)
      (fun h' result found s => (callSections H request c alone).leaves h' found s ∧
        adopted h' = adopted h ∧ Counted result ∧ (result.success = true →
          Delivered H peer expectedSha256 (exchangesOf h') result.data)) h found s :=
  meets_downloadFromPeer_told
    (tolerates_callSections fun _ _ hsame => (adopted_concat_of_none rfl).trans hsame)
    (fun _ _ _ _ => And.right) ctx peer hs fun _ _ _ => adopted_concat_of_none rfl

/-! ## The race and the fallback -/

theorem meets_spawnDownloads_call (ctx : Nat) (peers : List PeerNode)
    (hs : (callSections H request c alone).leaves h found s) :
    (spawnDownloads ctx expectedSha256 peers).Meets (callSections H request c alone)
      (fun h' _ found s => (callSections H request c alone).leaves h' found s ∧
        adopted h' = adopted h) h found s := by
  induction peers generalizing h found s with
  | nil => exact ⟨hs, rfl⟩
  | cons peer peers ih =>
      refine Meets.bind ⟨hs, ⟨ctx, peer, expectedSha256, rfl⟩, fun s' (id : Nat) hadmits => ?_⟩
      refine Meets.seq (ih (leaves_of_admits _ rfl hadmits)) ?_
      rintro h' handles found s ⟨hleaves, hsame⟩
      exact ⟨hleaves, hsame.trans (adopted_concat_of_none rfl)⟩

theorem leaves_adopt (H : Sha256) (alone : Prop) (result : PeerDownloadResult)
    {h' : List (Event nodeSignature)}
    (hs : ChangesOnly request.chunkId found.transfer s.transfer ∧ Owned s.transfer ∧
      Owns s.transfer request.chunkId c)
    (hkeeps : KeepsEntries h' found.transfer s.transfer)
    (hadopted : ∀ copy, adopted h' = some copy →
      copy.result.bytesDownloaded = result.bytesDownloaded) :
    let t := s.transfer.updateContext c fun context =>
      { context with stopFlag := true, downloadedSize := result.bytesDownloaded }
    (callSections H request c alone).leaves h' found { s with transfer := t } ∧
      downloadedSize t c = some result.bytesDownloaded := by
  obtain ⟨hbefore, howned, howns⟩ := hs
  have hchanges : ChangesOnly request.chunkId s.transfer (s.transfer.updateContext c fun context =>
      { context with stopFlag := true, downloadedSize := result.bytesDownloaded }) :=
    changesOnly_updateContext howns fun _ => ⟨rfl, rfl⟩
  have hsize : downloadedSize (s.transfer.updateContext c fun context =>
      { context with stopFlag := true, downloadedSize := result.bytesDownloaded }) c =
        some result.bytesDownloaded := by
    obtain ⟨context, hcontext, -⟩ := howns
    simp [downloadedSize, TransferManager.updateContext, hcontext]
  refine ⟨⟨hbefore.trans hchanges, hchanges.owned howned, hchanges.owns _ _ howns, fun _ => ?_,
    hkeeps.trans rfl rfl⟩, hsize⟩
  intro copy hfirst
  rw [hsize, hadopted copy hfirst]

theorem meets_joinDownloads_call {handles : List (Nat × PeerNode)} {winner : Option Bytes}
    (hs : (callSections H request c alone).leaves h found s)
    (hwinner : winner = (adopted h).map fun copy => copy.result.data)
    (hdelivered : AdoptedDelivered H expectedSha256 h)
    (hsize : SizeInSection c h found.transfer s.transfer) :
    (joinDownloads c expectedSha256 handles winner).Meets (callSections H request c alone)
      (fun h' winner found s => (callSections H request c alone).leaves h' found s ∧
        winner = ((adopted h').map fun copy => copy.result.data) ∧
          AdoptedDelivered H expectedSha256 h' ∧ SizeInSection c h' found.transfer s.transfer)
      h found s := by
  induction handles generalizing h found s winner with
  | nil => exact ⟨hs, hwinner, hdelivered, hsize⟩
  | cons handle handles ih =>
      refine Meets.bind (Meets.bind ⟨hs, ⟨c, handle.2, expectedSha256, rfl⟩,
        fun s' finished hadmits => ?_⟩)
      obtain ⟨⟨howned, howns, hagrees⟩, result, hresult, hcounted, hsuccess⟩ := hadmits
      obtain ⟨exchanges, value⟩ := finished
      simp only at hresult hsuccess
      subst hresult
      change ((if winner.isNone && result.success then _ else _ : Proc (Option Bytes))).Meets _ _
        (h ++ [Event.joined handle.1 (Job.downloadFromPeer c handle.2 expectedSha256)
          ⟨exchanges, .peerDownload result⟩]) s' s'
      split
      · rename_i hwins
        simp only [Bool.and_eq_true, Option.isNone_iff_eq_none] at hwins
        obtain ⟨rfl, hwon⟩ := hwins
        have hbefore := Option.map_eq_none_iff.mp hwinner.symm
        have hfirst : adopted (h ++ [Event.joined handle.1
            (Job.downloadFromPeer c handle.2 expectedSha256) ⟨exchanges, .peerDownload result⟩]) =
              some ⟨c, exchanges, result⟩ := adopted_concat_of_first hbefore (if_pos hwon)
        obtain ⟨hleaves, hset⟩ := leaves_adopt H alone result
          ⟨ChangesOnly.refl request.chunkId s'.transfer, howned, howns⟩
          ⟨rfl, fun _ => rfl⟩ fun copy hcopy => by
            rw [hfirst] at hcopy
            cases hcopy
            rfl
        refine Meets.bind (meets_onTransfer ?_)
        refine ih hleaves ?_ ?_ ?_
        · rw [hfirst]
          rfl
        · intro copy hcopy
          rw [hfirst] at hcopy
          cases hcopy
          exact ⟨hcounted, hwon, handle.2, hsuccess hwon⟩
        · intro copy hcopy
          rw [hfirst] at hcopy
          cases hcopy
          refine ⟨rfl, ?_⟩
          rw [List.dropLast_concat, hbefore]
          exact hset
      · rename_i hloses
        have hsame : adopted (h ++ [Event.joined handle.1
            (Job.downloadFromPeer c handle.2 expectedSha256) ⟨exchanges, .peerDownload result⟩]) =
              adopted h := by
          cases hcopy : adopted h with
          | some copy => exact adopted_append_of_some hcopy _
          | none =>
              rw [hcopy, Option.map_none] at hwinner
              rw [hwinner] at hloses
              have hfailed : ¬ result.success = true := by simpa using hloses
              refine (adopted_concat_of_none ?_).trans hcopy
              exact if_neg hfailed
        refine ih ⟨ChangesOnly.refl _ _, howned, howns, fun halone => ?_, rfl, fun _ => rfl⟩ ?_
          (adoptedDelivered_of_eq hsame hdelivered) fun copy hcopy => ?_
        · unfold SizeAgrees
          rw [hsame]
          exact hagrees halone
        · rw [hsame]
          exact hwinner
        · rw [hsame] at hcopy
          refine ⟨(hsize copy hcopy).1, ?_⟩
          rw [List.dropLast_concat, hcopy]
          rfl

/-- What the fallback and the race come to: delivered data.  Its size stands in
the context if nobody else writes it, or if the copy was adopted in the last
section. -/
structure Obtains (H : Sha256) (expectedSha256 : Bytes) (c : Nat) (alone : Prop)
    (h : List (Event nodeSignature)) (data : Bytes) (found t : TransferManager) : Prop where
  taken : h ≠ []
  delivered : ∃ peer, Delivered H peer expectedSha256 (adoptedExchanges h) data
  size : alone → downloadedSize t c = some data.length
  ctx : ∀ copy, adopted h.dropLast = some copy → copy.ctx = c
  sizeInSection : downloadedSize t c =
    if (adopted h.dropLast).isNone then some data.length else downloadedSize found c

theorem adopted_of_dropLast {copy : Copy} (hcopy : adopted h.dropLast = some copy) :
    adopted h = some copy := by
  cases hlast : h.getLast? with
  | none =>
      rw [List.getLast?_eq_none_iff] at hlast
      rw [hlast] at hcopy
      cases hcopy
  | some event =>
      rw [← List.dropLast_append_getLast? event hlast, adopted_append_of_some hcopy]

theorem ne_nil_of_delivered {data : Bytes}
    (hcame : ∃ peer, Delivered H peer expectedSha256 (adoptedExchanges h) data) : h ≠ [] := by
  rintro rfl
  obtain ⟨peer, -, before, after, hexchanges, -⟩ := hcame
  have hsome : ([] : List NetExchange) ≠ before ++ ⟨.tcpConnect peer.address peer.port, true⟩ ::
    after := by simp
  exact hsome hexchanges

theorem meets_tryFallback_call (peers : List PeerNode) (hnone : adopted h = none)
    (hs : (callSections H request c alone).leaves h found s) :
    (tryFallback H c expectedSha256 peers).Meets (callSections H request c alone)
      (fun h' result found s => (callSections H request c alone).leaves h' found s ∧
        ∀ data, result = some data →
          Obtains H expectedSha256 c alone h' data found.transfer s.transfer)
      h found s := by
  induction peers generalizing h found s with
  | nil => exact ⟨hs, fun data hdata => nomatch hdata⟩
  | cons peer peers ih =>
      refine Meets.bind (meets_onTransfer ?_)
      split
      · exact ⟨hs, fun data hdata => nomatch hdata⟩
      refine Meets.seq (meets_downloadFromPeer_call c peer hs) ?_
      rintro h' result found s ⟨hleaves, hsame, hcounted, hdelivered⟩
      have hnone' : adopted h' = none := hsame.trans hnone
      split
      · rename_i hsuccess
        have hnothing : ∀ copy, adopted h' = some copy →
            copy.result.bytesDownloaded = result.bytesDownloaded := by
          intro copy hcopy
          rw [hnone'] at hcopy
          cases hcopy
        obtain ⟨hleaves', hsize⟩ := leaves_adopt H alone result
          ⟨hleaves.1, hleaves.2.1, hleaves.2.2.1⟩ hleaves.2.2.2.2 hnothing
        have hearlier : adopted h'.dropLast = none := by
          cases hcopy : adopted h'.dropLast with
          | none => rfl
          | some copy =>
              rw [adopted_of_dropLast hcopy] at hnone'
              cases hnone'
        replace hsize := hsize.trans (congrArg some (hcounted hsuccess))
        refine Meets.bind (meets_onTransfer ⟨hleaves', ?_⟩)
        rintro data hdata
        cases hdata
        have hcame : ∃ peer, Delivered H peer expectedSha256 (adoptedExchanges h') result.data := by
          refine ⟨peer, ?_⟩
          rw [adoptedExchanges, hnone']
          exact hdelivered hsuccess
        refine ⟨ne_nil_of_delivered hcame, hcame, fun _ => hsize, ?_, ?_⟩
        · intro copy hcopy
          rw [hearlier] at hcopy
          cases hcopy
        · rw [hearlier]
          exact hsize
      · exact ih hnone' hleaves

theorem meets_raceDownloads_call (candidates selected : List PeerNode) (hnone : adopted h = none)
    (hs : (callSections H request c alone).leaves h found s) :
    (raceDownloads H c expectedSha256 candidates selected).Meets (callSections H request c alone)
      (fun h' result found s => (callSections H request c alone).leaves h' found s ∧
        ∀ data, result = some data →
          Obtains H expectedSha256 c alone h' data found.transfer s.transfer)
      h found s := by
  refine Meets.seq (meets_spawnDownloads_call c selected hs) ?_
  rintro h handles found s ⟨hs, hsame⟩
  rw [hnone] at hsame
  have hnothing : ∀ copy, adopted h ≠ some copy := by
    intro copy hcopy
    rw [hsame] at hcopy
    cases hcopy
  refine Meets.seq (meets_joinDownloads_call hs (by rw [hsame]; rfl)
    (fun copy hcopy => absurd hcopy (hnothing copy))
    fun copy hcopy => absurd hcopy (hnothing copy)) ?_
  rintro h winner found s ⟨hs, hwinner, hdelivered, hsize⟩
  cases hcopy : adopted h with
  | none =>
      rw [hcopy] at hwinner
      subst hwinner
      exact meets_tryFallback_call _ hcopy hs
  | some copy =>
      rw [hcopy] at hwinner
      subst hwinner
      obtain ⟨hcounted, hsuccess, hcame⟩ := hdelivered copy hcopy
      obtain ⟨hctx, hsize⟩ := hsize copy hcopy
      rw [hcounted hsuccess] at hsize
      refine ⟨hs, fun data hdata => ?_⟩
      cases hdata
      have hbrought : ∃ peer, Delivered H peer expectedSha256 (adoptedExchanges h)
          copy.result.data := by rwa [adoptedExchanges, hcopy]
      refine ⟨ne_nil_of_delivered hbrought, hbrought, fun halone => ?_,
        fun copy' hcopy' => ?_, hsize⟩
      · rw [hs.2.2.2.1 halone copy hcopy, hcounted hsuccess]
      · rw [adopted_of_dropLast hcopy'] at hcopy
        cases hcopy
        exact hctx

/-! ## The whole call -/

/-- What a call that has begun its race returns in: what it saves is the size of
the data, or else the size that its last section has found in the context. -/
structure Concludes (H : Sha256) (request : TransferRequest) (alone : Prop)
    (h : List (Event nodeSignature)) (result : Option Bytes) (found s : Node) : Prop where
  changes : ChangesOnly request.chunkId found.transfer s.transfer
  forgotten : s.transfer.activeTransfers.lookup request.chunkId = none
  delivered : ∀ data, result = some data →
    ∃ peer, Delivered H peer request.expectedSha256 (adoptedExchanges h) data
  saved : s.transfer.progressFiles.Faultless → ∀ data, result = some data →
    ∃ n, s.transfer.savedProgress.lookup request.chunkId = some n ∧ (alone → n = data.length) ∧
      match adopted h.dropLast with
      | none => n = data.length
      | some copy => downloadedSize found.transfer copy.ctx = some n

theorem savedProgress_endDownload {t : TransferManager} {chunkId data : Bytes} {n : Nat}
    (howns : Owns t chunkId c)
    (hfaultless : (endDownload chunkId c (some data) t).2.progressFiles.Faultless)
    (hsize : downloadedSize t c = some n) :
    (endDownload chunkId c (some data) t).2.savedProgress.lookup chunkId = some n := by
  have hfiles : t.progressFiles.Faultless := by
    intro n
    rw [← (changesOnly_endDownload howns (some data)).outcome]
    exact hfaultless n
  have hsaved : (t.saveProgress chunkId n).savedProgress.lookup chunkId = some n := by
    simp only [TransferManager.saveProgress, hfiles.write_opens, if_true]
    exact AList.lookup_insert _
  unfold downloadedSize at hsize
  rw [← savedProgress_removeTemp c] at hsaved
  simp only [endDownload, hsize, Option.getD_some, TransferManager.removeTransfer]
  split
  · exact hsaved
  · exact hsaved

theorem Obtains.saved {data : Bytes} {found t : TransferManager}
    (hobtains : Obtains H expectedSha256 c alone h data found t)
    (howns : Owns t request.chunkId c)
    (hfaultless : (endDownload request.chunkId c (some data) t).2.progressFiles.Faultless) :
    ∃ n, (endDownload request.chunkId c (some data) t).2.savedProgress.lookup request.chunkId =
      some n ∧ (alone → n = data.length) ∧
        match adopted h.dropLast with
        | none => n = data.length
        | some copy => downloadedSize found copy.ctx = some n := by
  obtain ⟨context, hcontext, -⟩ := id howns
  have hsize : downloadedSize t c = some context.downloadedSize := by
    rw [downloadedSize, hcontext, Option.map_some]
  have hn := hobtains.sizeInSection
  rw [hsize] at hn
  refine ⟨context.downloadedSize, savedProgress_endDownload howns hfaultless hsize,
    fun halone => ?_, ?_⟩
  · have hlength := hobtains.size halone
    rw [hsize] at hlength
    exact Option.some.inj hlength
  · cases hcopy : adopted h.dropLast with
    | none =>
        rw [hcopy] at hn
        exact Option.some.inj hn
    | some copy =>
        rw [hcopy, ← hobtains.ctx copy hcopy] at hn
        exact hn.symm

def CallEnds (H : Sha256) (request : TransferRequest) (alone : Prop)
    (h : List (Event nodeSignature)) (result : JobResult) (found s : Node) : Prop :=
  (∃ data, result = .chunk data ∧ Concludes H request alone h data found s) ∨
    result = .thrown ∧ Aborts H request h found s

theorem meets_endDownload_call {result : Option Bytes}
    (hs : (callSections H request c alone).leaves h found s)
    (hobtains : ∀ data, result = some data →
      Obtains H request.expectedSha256 c alone h data found.transfer s.transfer) :
    (do if ← onTransfer (endDownload request.chunkId c result) then pure result else .raise :
      Proc (Option Bytes)).Meets (callSections H request c alone) (Concludes H request alone)
      h found s := by
  obtain ⟨hchanges, howned, howns, -, hkeeps⟩ := hs
  have hends := hchanges.trans (changesOnly_endDownload howns result)
  refine Meets.bind (meets_onTransfer ?_)
  cases hend : (endDownload request.chunkId c result s.transfer).1 with
  | true =>
      exact
        { changes := hends
          forgotten := lookup_endDownload hend
          delivered := fun data hdata => (hobtains data hdata).delivered
          saved := by
            rintro hfaultless data rfl
            exact (hobtains data rfl).saved howns hfaultless }
  | false =>
      obtain ⟨hdata, hrefused⟩ := (endDownload_throws_iff howns result).mp hend
      obtain ⟨data, rfl⟩ := Option.isSome_iff_exists.mp hdata
      obtain ⟨peer, hdelivered⟩ := (hobtains data rfl).delivered
      rw [hkeeps.files, TransferManager.tempPath, hchanges.dir] at hrefused
      exact
        { changes := hends
          entry := (activeTransfers_endDownload hend).trans
            (hkeeps.active (hobtains data rfl).taken)
          copy := ⟨peer, data, hdelivered⟩
          refused := hrefused }

theorem meets_downloadChunk_call (howned : Owned s.transfer)
    (hrunning : s.transfer.running = true) (hbegins : CanBegin request s) :
    (downloadChunk H request).Meets
      (callSections H request (openContext request s.transfer).1 alone)
      (Concludes H request alone) [] s s := by
  refine Meets.bind (meets_onTransfer ?_)
  rw [if_neg (by simp [hrunning])]
  obtain ⟨hchanges, howns⟩ := changesOnly_beginDownload howned request
  have hbegin : some (beginDownload request s) =
      some ((beginDownload request s).1, (beginDownload request s).2) := rfl
  refine Meets.bind (meets_atomically hbegin ?_)
  obtain ⟨-, selected, hbegun, -⟩ := (beginDownload_cases request s).resolve_left
    fun hcannot => hcannot.1 hbegins
  rw [hbegun]
  refine Meets.seq (meets_raceDownloads_call _ selected rfl
    ⟨hchanges, hchanges.owned howned, howns, fun _ copy hcopy => (by cases hcopy),
      progressFiles_beginDownload request s, fun hlater => absurd rfl hlater⟩) ?_
  rintro h result found s' ⟨hleaves, hobtains⟩
  exact meets_endDownload_call hleaves hobtains

theorem not_hasCopy_nil : ¬HasCopy H request [] := by
  rintro ⟨peer, data, hdelivered⟩
  exact ne_nil_of_delivered ⟨peer, hdelivered⟩ rfl

def earlyEnd (request : TransferRequest) (s : Node) : JobResult :=
  if s.transfer.running then earlyResult (beginDownload request s).1 else .chunk none

theorem earlyEnd_ne_data (request : TransferRequest) (s : Node) (data : Bytes) :
    earlyEnd request s ≠ .chunk (some data) := by
  unfold earlyEnd
  split
  · cases (beginDownload request s).1 with
    | unreserved => simp [earlyResult]
    | nobody => simp [earlyResult]
    | race c candidates selected => simp [earlyResult]
  · simp

/-- A call that stops at once: the manager does not run, or the call cannot
begin.  In the second case it leaves the context behind. -/
theorem meets_downloadChunk_early {R : Regime nodeSignature}
    (hearly : s.transfer.running = false ∨ ¬CanBegin request s)
    (hthrows : earlyEnd request s = .thrown → R.throws [] s (beginDownload request s).2) :
    (downloadChunk H request).Meets R (fun h result _ s' => h = [] ∧
      JobResult.chunk result = earlyEnd request s ∧
      s' = if s.transfer.running then (beginDownload request s).2 else s) [] s s := by
  refine Meets.bind (meets_onTransfer ?_)
  unfold earlyEnd at hthrows ⊢
  cases hrunning : s.transfer.running with
  | false => exact ⟨rfl, rfl, rfl⟩
  | true =>
      have hcannot := hearly.resolve_left (by simp [hrunning])
      have hbegin : some (beginDownload request s) =
          some ((beginDownload request s).1, (beginDownload request s).2) := rfl
      rw [if_pos hrunning] at hthrows
      refine Meets.bind (meets_atomically hbegin ?_)
      rcases beginDownload_of_not hcannot with hnone | hnone
      · rw [hnone] at hthrows ⊢
        exact hthrows rfl
      · rw [hnone]
        exact ⟨rfl, rfl, rfl⟩

end Call

end ElioP2P.P2P
