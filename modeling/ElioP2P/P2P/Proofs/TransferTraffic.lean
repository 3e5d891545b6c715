import ElioP2P.Library.Dialogues
import ElioP2P.P2P.Proofs.Delivery

/-!
# Whom transfers talk to

A chunk server connection asks for nothing but its own stream.  Downloads and
uploads open connections to peers, and none of them turns to the origin.  What
only listens on a stream leaves the contexts of all transfers alone.
-/

namespace ElioP2P.P2P

open ElioP2P.Library ElioP2P.Library.Coroutine ElioP2P.Cache

def Listening : Wait nodeSignature → Prop
  | .external (.streamRead _) | .external .streamClose | .external (.reserve _)
  | .external (.sleepFor _) => True
  | _ => False

def OnStream : Wait nodeSignature → Prop
  | .external (.streamRead _) | .external (.streamWrite _) | .external .streamClose
  | .external (.reserve _) | .external (.sleepFor _) | .external (.lock _) => True
  | _ => False

def WithPeer (peer : PeerNode) (w : Wait nodeSignature) : Prop :=
  OnStream w ∨ w = .external (.tcpConnect peer.address peer.port)

def WithPeers (w : Wait nodeSignature) : Prop :=
  (∃ peer, WithPeer peer w) ∨ ∃ ctx peer expectedSha256,
    w = .spawn (.downloadFromPeer ctx peer expectedSha256) ∨
      ∃ id, w = .join id (.downloadFromPeer ctx peer expectedSha256)

def answersPeer : Job → Bool
  | .chunkConnection => true
  | _ => false

theorem chunkConnection_of_answersPeer {job : Job} (h : answersPeer job = true) :
    job = .chunkConnection := by
  cases job with
  | chunkConnection => rfl
  | _ => cases h

structure SameContexts (t t' : TransferManager) : Prop where
  contexts : t'.contexts = t.contexts
  active : t'.activeTransfers = t.activeTransfers
  dir : t'.progressDir = t.progressDir

theorem OnStream.of_listening {w : Wait nodeSignature} (hw : Listening w) : OnStream w := by
  unfold Listening at hw
  split at hw
  · trivial
  · trivial
  · trivial
  · trivial
  · exact hw.elim

section Traffic

variable {W : Wait nodeSignature → Prop} {R : Node → Node → Prop} {H : Sha256} {s : Node}
  (hR : ∀ (s : Node) t, SameContexts s.transfer t → R s { s with transfer := t })
include hR

theorem within_onTransfer {α : Type} {f : TransferManager → α × TransferManager}
    (hf : ∀ t, SameContexts t (f t).2) : (onTransfer f).Within W R s := by
  apply within_atomically
  intro value s' hvalue
  cases hvalue
  exact hR s _ (hf s.transfer)

theorem within_acquire (direction : Direction) (bytes : Nat)
    (hW : ∀ ms, W (.external (.sleepFor ms))) : (acquire direction bytes).Within W R s := by
  apply Within.bind
  · apply within_onTransfer hR
    intro t
    cases direction with
    | upload => exact ⟨rfl, rfl, rfl⟩
    | download => exact ⟨rfl, rfl, rfl⟩
  intro wait s
  cases wait with
  | none => exact within_pure ()
  | some ms => exact within_ask (hW ms)

/-! ## Listening -/

section Listening

variable (hW : ∀ w, Listening w → W w)
include hW

omit hR in
theorem within_closeWith {α : Type} (result : α) : (closeWith result).Within W R s :=
  Within.bind (within_ask (hW _ trivial)) fun _ _ => within_pure result

omit hR in
theorem within_readLoop (n rounds : Nat) (got : Bytes) : (readLoop n rounds got).Within W R s := by
  induction rounds generalizing got s with
  | zero => exact within_pure got
  | succ rounds ih =>
      unfold readLoop
      apply within_ite
      · apply Within.bind (within_ask (hW (.external (.streamRead _)) trivial))
        intro r s
        exact within_ite (within_pure got) (ih _)
      · exact within_pure got

omit hR in
theorem within_readExact (n : Nat) : (readExact n).Within W R s := within_readLoop hW n n []

omit hR in
theorem within_readHeader : readHeader.Within W R s := by
  apply Within.bind (within_readExact hW _)
  intro bytes s
  split
  · exact within_pure _
  · exact within_pure none

theorem within_receiveData (ctx total rounds : Nat) (data : Bytes) :
    (receiveData ctx total rounds data).Within W R s := by
  induction rounds generalizing data s with
  | zero => exact within_pure _
  | succ rounds ih =>
      unfold receiveData
      apply within_ite
      · apply Within.bind (within_onTransfer hR fun _ => ⟨rfl, rfl, rfl⟩)
        intro stopped s
        apply within_ite (within_closeWith hW _)
        apply Within.bind (within_acquire hR _ _ fun _ => hW _ trivial)
        intro _ s
        apply Within.bind (within_readExact hW _)
        intro got s
        exact within_ite (within_closeWith hW _) (ih _)
      · exact within_pure _

theorem within_receiveResponse (ctx : Nat) (expectedSha256 : Bytes)
    (header : ChunkMessageHeader) :
    (receiveResponse H ctx expectedSha256 header).Within W R s := by
  apply Within.bind (within_readExact hW _)
  intro id s
  apply within_ite (within_closeWith hW _)
  apply Within.bind (within_ask (hW (.external (.reserve _)) trivial))
  intro reserved s
  apply within_ite (within_pure _)
  apply Within.bind (within_receiveData hR hW _ _ _ _)
  intro received s
  cases received with
  | error result => exact within_pure result
  | ok data => exact Within.bind (within_ask (hW _ trivial)) fun _ _ => within_pure _

theorem within_reply (ctx : Nat) (expectedSha256 : Bytes) :
    (do
      match ← readHeader with
      | none => closeWith {}
      | some header =>
          if header.magic ≠ chunkTransferMagic ∨
              header.messageType ≠ ChunkMessageType.response.toUInt32 then closeWith {}
          else receiveResponse H ctx expectedSha256 header : Proc PeerDownloadResult).Within
      W R s := by
  apply Within.bind (within_readHeader hW)
  intro header s
  cases header with
  | none => exact within_closeWith hW _
  | some header =>
      exact within_ite (within_closeWith hW _) (within_receiveResponse hR hW _ _ _)

theorem within_uploadFailed (close : Bool) : (uploadFailed close).Within W R s := by
  apply Within.bind (within_onTransfer hR fun _ => ⟨rfl, rfl, rfl⟩)
  intro _ s
  exact within_ite (within_closeWith hW false) (within_pure false)

theorem within_readUploadReply (data : Bytes) : (readUploadReply H data).Within W R s := by
  apply Within.bind (within_readHeader hW)
  intro reply s
  cases reply with
  | none => exact within_uploadFailed hR hW true
  | some reply =>
      apply Within.bind (within_readExact hW _)
      intro _ s
      apply within_ite (within_uploadFailed hR hW true)
      apply Within.bind (within_ask (hW (.external .streamClose) trivial))
      intro _ s
      exact Within.bind (within_onTransfer hR fun _ => ⟨rfl, rfl, rfl⟩) fun _ _ => within_pure true

end Listening

/-! ## Sending -/

section OnStream

variable (hW : ∀ w, OnStream w → W w)
include hW

omit hR in
theorem within_writeLoop (rounds : Nat) (rest : Bytes) : (writeLoop rounds rest).Within W R s := by
  induction rounds generalizing rest s with
  | zero => exact within_pure _
  | succ rounds ih =>
      unfold writeLoop
      apply within_ite
      · exact within_pure true
      · apply Within.bind (within_ask (hW (.external (.streamWrite _)) trivial))
        intro r s
        exact within_ite (within_pure false) (ih _)

omit hR in
theorem within_writeExact (bytes : Bytes) : (writeExact bytes).Within W R s :=
  within_writeLoop hW bytes.length bytes

omit hR in
theorem within_writeMessage (header : ChunkMessageHeader) (chunkId : Bytes) :
    (writeMessage header chunkId).Within W R s := by
  apply Within.bind (within_writeExact hW _)
  intro sent s
  exact within_ite (within_writeExact hW chunkId) (within_pure false)

theorem within_sendSlices (rounds : Nat) (rest : Bytes) :
    (sendSlices rounds rest).Within W R s := by
  have hlistening : ∀ w, Listening w → W w := fun w hw => hW w (.of_listening hw)
  induction rounds generalizing rest s with
  | zero => exact within_pure _
  | succ rounds ih =>
      unfold sendSlices
      apply within_ite
      · exact within_pure true
      · apply Within.bind (within_acquire hR _ _ fun _ => hW _ trivial)
        intro _ s
        apply Within.bind (within_writeExact hW _)
        intro sent s
        exact within_ite (ih _) (within_pure false)

/-! ## The chunk server -/

variable {provider : Bytes → Proc (Option Bytes)} {consumer : Bytes → Bytes → Proc Bool}

omit hR in
theorem within_receiveUpload (hconsumer : ∀ chunkId data s, (consumer chunkId data).Within W R s)
    (header : ChunkMessageHeader) (chunkId : Bytes) :
    (receiveUpload consumer H header chunkId).Within W R s := by
  have hlistening : ∀ w, Listening w → W w := fun w hw => hW w (.of_listening hw)
  apply within_ite (within_pure ())
  apply Within.bind (within_readExact hlistening _)
  intro data s
  apply within_ite (within_pure ())
  have haccept : (acceptUpload consumer H header chunkId data).Within W R s :=
    within_ite (hconsumer chunkId data s) (within_pure false)
  apply Within.bind haccept
  intro accepted s
  apply Within.bind (within_writeMessage hW _ _)
  intro _ s
  exact within_ask (hW _ trivial)

theorem within_serveChunk (hprovider : ∀ chunkId s, (provider chunkId).Within W R s)
    (header : ChunkMessageHeader) (chunkId : Bytes) :
    (serveChunk provider H header chunkId).Within W R s := by
  apply Within.bind (hprovider chunkId s)
  intro data s
  have hclose : ∀ s, streamClose.Within W R s := fun _ => within_ask (hW _ trivial)
  apply within_ite
  · exact Within.bind (within_writeMessage hW _ _) fun _ => hclose
  · apply Within.bind (within_writeMessage hW _ _)
    intro sent s
    apply within_ite
    · exact Within.bind (within_sendSlices hR hW _ _) fun _ => hclose
    · exact hclose s

theorem within_handleChunkRequest (hprovider : ∀ chunkId s, (provider chunkId).Within W R s)
    (hconsumer : ∀ chunkId data s, (consumer chunkId data).Within W R s) :
    (handleChunkRequest provider consumer H).Within W R s := by
  have hlistening : ∀ w, Listening w → W w := fun w hw => hW w (.of_listening hw)
  apply Within.bind (within_readHeader hlistening)
  intro header s
  cases header with
  | none => exact within_pure ()
  | some header =>
      apply within_ite (within_pure ())
      apply Within.bind (within_readExact hlistening _)
      intro chunkId s
      apply within_ite (within_pure ())
      exact within_ite (within_receiveUpload hW hconsumer header chunkId)
        (within_serveChunk hR hW hprovider header chunkId)

end OnStream

/-! ## Connecting to one peer -/

theorem within_downloadFromPeer (ctx : Nat) (peer : PeerNode) (expectedSha256 : Bytes)
    (hW : ∀ w, WithPeer peer w → W w) :
    (downloadFromPeer H ctx peer expectedSha256).Within W R s := by
  have hstream : ∀ w, OnStream w → W w := fun w hw => hW w (Or.inl hw)
  have hlistening : ∀ w, Listening w → W w := fun w hw => hstream w (.of_listening hw)
  apply Within.bind (within_ask (hW _ (Or.inr rfl)))
  intro connected s
  apply within_ite (within_pure _)
  apply Within.bind (within_onTransfer hR fun _ => ⟨rfl, rfl, rfl⟩)
  intro context s
  apply Within.bind (within_writeMessage hstream _ _)
  intro sent s
  exact within_ite (within_closeWith hlistening _) (within_reply hR hlistening _ _)

theorem within_uploadChunk (chunkId data : Bytes) (peer : PeerNode)
    (hW : ∀ w, WithPeer peer w → W w) : (uploadChunk H chunkId data peer).Within W R s := by
  have hstream : ∀ w, OnStream w → W w := fun w hw => hW w (Or.inl hw)
  have hlistening : ∀ w, Listening w → W w := fun w hw => hstream w (.of_listening hw)
  apply Within.bind (within_onTransfer hR fun _ => ⟨rfl, rfl, rfl⟩)
  intro running s
  apply within_ite (within_pure false)
  apply Within.bind (within_onTransfer hR fun _ => ⟨rfl, rfl, rfl⟩)
  intro _ s
  apply Within.bind (within_ask (hW _ (Or.inr rfl)))
  intro connected s
  apply within_ite (within_uploadFailed hR hlistening false)
  apply Within.bind (within_writeMessage hstream _ _)
  intro sent s
  apply within_ite (within_uploadFailed hR hlistening true)
  apply Within.bind (within_sendSlices hR hstream _ _)
  intro sentData s
  exact within_ite (within_uploadFailed hR hlistening true)
    (within_readUploadReply hR hlistening data)

end Traffic

/-! ## Downloads from many peers -/

section WithPeers

variable {W : Wait nodeSignature → Prop} {R : Node → Node → Prop} {H : Sha256} {s : Node}
  (hR : ∀ (s : Node) transfer discovery,
    R s { s with transfer := transfer, discovery := discovery })
  (hW : ∀ w, WithPeers w → W w)
include hR hW

omit hW in
theorem within_anyTransfer {α : Type} (f : TransferManager → α × TransferManager) :
    (onTransfer f).Within W R s := by
  apply within_atomically
  intro value s' hvalue
  cases hvalue
  exact hR s _ s.discovery

omit hR in
theorem within_spawnDownloads (ctx : Nat) (expectedSha256 : Bytes) (peers : List PeerNode) :
    (spawnDownloads ctx expectedSha256 peers).Within W R s := by
  induction peers generalizing s with
  | nil => exact within_pure []
  | cons peer peers ih =>
      apply Within.bind (within_spawn (hW _ (Or.inr ⟨ctx, peer, expectedSha256, Or.inl rfl⟩)))
      intro id s
      exact Within.bind ih fun rest _ => within_pure _

theorem within_joinDownloads (ctx : Nat) (expectedSha256 : Bytes)
    (handles : List (Nat × PeerNode)) (winner : Option Bytes) :
    (joinDownloads ctx expectedSha256 handles winner).Within W R s := by
  induction handles generalizing winner s with
  | nil => exact within_pure winner
  | cons handle handles ih =>
      have hjoin : (joinDownload ctx expectedSha256 handle).Within W R s := by
        apply Within.bind (within_join
          (hW _ (Or.inr ⟨ctx, handle.2, expectedSha256, Or.inr ⟨handle.1, rfl⟩⟩)))
        intro finished s
        split
        · exact within_pure _
        · exact within_diverge
      apply Within.bind hjoin
      intro result s
      apply within_ite
      · exact Within.bind (within_anyTransfer hR _) fun _ _ => ih _
      · exact ih winner

theorem within_tryFallback (ctx : Nat) (expectedSha256 : Bytes) (peers : List PeerNode) :
    (tryFallback H ctx expectedSha256 peers).Within W R s := by
  induction peers generalizing s with
  | nil => exact within_pure none
  | cons peer peers ih =>
      apply Within.bind (within_anyTransfer hR _)
      intro stopped s
      apply within_ite (within_pure none)
      apply Within.bind (within_downloadFromPeer (fun s t _ => hR s t s.discovery) ctx peer
        expectedSha256 fun w hw => hW w (Or.inl ⟨peer, hw⟩))
      intro result s
      apply within_ite
      · exact Within.bind (within_anyTransfer hR _) fun _ _ => within_pure _
      · exact ih

theorem within_raceDownloads (ctx : Nat) (expectedSha256 : Bytes)
    (candidates selected : List PeerNode) :
    (raceDownloads H ctx expectedSha256 candidates selected).Within W R s := by
  apply Within.bind (within_spawnDownloads hW _ _ _)
  intro handles s
  apply Within.bind (within_joinDownloads hR hW _ _ _ _)
  intro joined s
  cases joined with
  | none => exact within_tryFallback hR hW _ _ _
  | some data => exact within_pure _

theorem within_downloadChunk (request : TransferRequest) :
    (downloadChunk H request).Within W R s := by
  apply Within.bind (within_anyTransfer hR _)
  intro running s
  apply within_ite (within_pure none)
  have hbegin : (Coroutine.atomically (S := nodeSignature) fun s : Node =>
      some (beginDownload request s)).Within W R s := by
    apply within_atomically
    intro begun s' hbegun
    obtain ⟨transfer, discovery, hkept⟩ := beginDownload_keeps request s
    rw [Option.some.inj hbegun] at hkept
    change s' = _ at hkept
    rw [hkept]
    exact hR s transfer discovery
  apply Within.bind hbegin
  intro begun s
  cases begun with
  | unreserved => exact within_raise
  | nobody => exact within_pure none
  | race ctx candidates selected =>
      apply Within.bind (within_raceDownloads hR hW _ _ _ _)
      intro result s
      apply Within.bind (within_anyTransfer hR _)
      intro ended s
      exact within_ite (within_pure result) within_raise

end WithPeers

end ElioP2P.P2P
