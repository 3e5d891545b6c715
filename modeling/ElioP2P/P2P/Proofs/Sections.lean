import ElioP2P.Library.Progress
import ElioP2P.P2P.Proofs.Delivery

/-!
# The sections of a download from one peer

Between two suspensions such a download moves the clock and the bandwidth
limiters on and changes nothing else.  Behind its first exchange it opens no
connection.  So it meets every regime that tolerates both.
-/

namespace ElioP2P.P2P

open ElioP2P.Library ElioP2P.Library.Coroutine

theorem meets_onTransfer {R : Regime nodeSignature} {α : Type}
    {f : TransferManager → α × TransferManager}
    {post : List (Event nodeSignature) → α → Node → Node → Prop}
    {h : List (Event nodeSignature)} {found s : Node}
    (hpost : post h (f s.transfer).1 found { s with transfer := (f s.transfer).2 }) :
    (onTransfer f).Meets R post h found s :=
  meets_atomically rfl hpost

/-! ## Connections -/

def endpoint (peer : PeerNode) : Bytes × UInt16 := (peer.address, peer.port)

def connectedTo : NetExchange → Option (Bytes × UInt16)
  | ⟨.tcpConnect address port, _⟩ => some (address, port)
  | _ => none

/-- Where a task has connected to, or has tried to, oldest first. -/
def connectsOf (h : List (Event nodeSignature)) : List (Bytes × UInt16) :=
  (exchangesOf h).filterMap connectedTo

@[simp] theorem connectsOf_append (h h' : List (Event nodeSignature)) :
    connectsOf (h ++ h') = connectsOf h ++ connectsOf h' := by
  simp [connectsOf]

@[simp] theorem connectsOf_spawned (id : Nat) (job : Job) :
    connectsOf [.spawned id job] = [] := rfl

@[simp] theorem connectsOf_joined (id : Nat) (job : Job) (finished : Finished nodeSignature) :
    connectsOf [.joined id job finished] = [] := rfl

@[simp] theorem connectsOf_tcpConnect (peer : PeerNode) (connected : Bool) :
    connectsOf [.external (⟨.tcpConnect peer.address peer.port, connected⟩ : NetExchange)] =
      [endpoint peer] := rfl

theorem connectsOf_quiet {x : NetExchange} (hx : isConnect x = false) :
    connectsOf [.external x] = [] := by
  obtain ⟨e, answer⟩ := x
  cases e with
  | tcpConnect address port => cases hx
  | _ => rfl

/-! ## Quiet sections -/

def Quiet (s s' : Node) : Prop :=
  ∃ ticks upload download, s' = { s with transfer := { s.transfer with
    steadyTicks := ticks, uploadLimiter := upload, downloadLimiter := download } }

theorem Quiet.refl (s : Node) : Quiet s s := ⟨_, _, _, rfl⟩

theorem Quiet.trans {s s' s'' : Node} (h : Quiet s s') (h' : Quiet s' s'') : Quiet s s'' := by
  obtain ⟨_, _, _, rfl⟩ := h
  obtain ⟨_, _, _, rfl⟩ := h'
  exact ⟨_, _, _, rfl⟩

/-- A regime that tolerates quiet sections and questions to the outside world;
`J` is something about a history that only connections can change. -/
structure Tolerates (R : Regime nodeSignature) (J : List (Event nodeSignature) → Prop) : Prop where
  starts : ∀ h s e answer, R.admits h s (.external e) answer →
    R.leaves (h ++ [.external (⟨e, answer⟩ : NetExchange)]) s s
  quiet : ∀ h found s s', R.leaves h found s → Quiet s s' → R.leaves h found s'
  waits : ∀ h s e, R.waits h s (.external e)
  lasts : ∀ h s e (answer : e.Answer), isConnect ⟨e, answer⟩ = false →
    R.admits h s (.external e) answer → J h → J (h ++ [.external (⟨e, answer⟩ : NetExchange)])

/-- Wherever it starts in the regime, the coroutine keeps to it, `J` stays true,
and what it returns satisfies `Q`. -/
def Minor {α : Type} (R : Regime nodeSignature) (J : List (Event nodeSignature) → Prop)
    (c : Proc α) (Q : α → Prop) : Prop :=
  ∀ h found s, R.leaves h found s → J h →
    c.Meets R (fun h value found s => R.leaves h found s ∧ J h ∧ Q value) h found s

section Minor

variable {R : Regime nodeSignature} {J : List (Event nodeSignature) → Prop} {α β : Type}
  {Q Q' : α → Prop}

theorem minor_pure {value : α} (hQ : Q value) : Minor R J (pure value) Q :=
  fun _ _ _ hs hJ => ⟨hs, hJ, hQ⟩

theorem Minor.bind {c : Proc α} {k : α → Proc β} {Q' : β → Prop} (hc : Minor R J c Q)
    (hk : ∀ value, Q value → Minor R J (k value) Q') : Minor R J (c >>= k) Q' := by
  intro h found s hs hJ
  refine Meets.seq (hc h found s hs hJ) ?_
  rintro h value found s ⟨hs, hJ, hvalue⟩
  exact hk value hvalue h found s hs hJ

theorem minor_ask (hR : Tolerates R J) (e : External) (hquiet : ∀ answer : e.Answer,
    isConnect ⟨e, answer⟩ = false) :
    Minor R J (Coroutine.ask (S := nodeSignature) e) fun _ => True := by
  intro h found s hs hJ
  refine ⟨hs, hR.waits h s e, fun s' answer hanswer => ?_⟩
  exact ⟨hR.starts h s' e answer hanswer, hR.lasts h s' e answer (hquiet answer) hanswer hJ,
    trivial⟩

theorem minor_onTransfer (hR : Tolerates R J) {f : TransferManager → α × TransferManager}
    (hf : ∀ s : Node, Quiet s { s with transfer := (f s.transfer).2 }) :
    Minor R J (onTransfer f) fun _ => True := by
  intro h found s hs hJ
  exact ⟨hR.quiet h found s _ hs (hf s), hJ, trivial⟩

theorem minor_ite {p : Prop} [Decidable p] {c c' : Proc α} (hc : Minor R J c Q)
    (hc' : Minor R J c' Q) : Minor R J (if p then c else c') Q := by
  split
  · exact hc
  · exact hc'

/-! ## Framing -/

theorem minor_streamClose (hR : Tolerates R J) : Minor R J streamClose fun _ => True :=
  minor_ask hR .streamClose fun _ => rfl

theorem minor_closeWith (hR : Tolerates R J) {result : α} (hQ : Q result) :
    Minor R J (closeWith result) Q :=
  Minor.bind (minor_streamClose hR) fun _ _ => minor_pure hQ

theorem minor_readLoop (hR : Tolerates R J) (n rounds : Nat) (got : Bytes) :
    Minor R J (readLoop n rounds got) fun _ => True := by
  induction rounds generalizing got with
  | zero => exact minor_pure trivial
  | succ rounds ih =>
      unfold readLoop
      apply minor_ite
      · apply Minor.bind (minor_ask hR (.streamRead _) fun _ => rfl)
        intro r _
        exact minor_ite (minor_pure trivial) (ih _)
      · exact minor_pure trivial

theorem minor_readExact (hR : Tolerates R J) (n : Nat) : Minor R J (readExact n) fun _ => True :=
  minor_readLoop hR n n []

theorem minor_writeLoop (hR : Tolerates R J) (rounds : Nat) (rest : Bytes) :
    Minor R J (writeLoop rounds rest) fun _ => True := by
  induction rounds generalizing rest with
  | zero => exact minor_pure trivial
  | succ rounds ih =>
      unfold writeLoop
      apply minor_ite
      · exact minor_pure trivial
      · apply Minor.bind (minor_ask hR (.streamWrite _) fun _ => rfl)
        intro r _
        exact minor_ite (minor_pure trivial) (ih _)

theorem minor_writeMessage (hR : Tolerates R J) (header : ChunkMessageHeader) (chunkId : Bytes) :
    Minor R J (writeMessage header chunkId) fun _ => True := by
  apply Minor.bind (minor_writeLoop hR _ _)
  intro sent _
  exact minor_ite (minor_writeLoop hR _ _) (minor_pure trivial)

theorem minor_readHeader (hR : Tolerates R J) : Minor R J readHeader fun _ => True := by
  apply Minor.bind (minor_readExact hR _)
  intro bytes _
  split
  · exact minor_pure trivial
  · exact minor_pure trivial

theorem minor_acquire (hR : Tolerates R J) (direction : Direction) (bytes : Nat) :
    Minor R J (acquire direction bytes) fun _ => True := by
  apply Minor.bind (minor_onTransfer hR ?_)
  · intro wait _
    cases wait with
    | none => exact minor_pure trivial
    | some ms => exact minor_ask hR (.sleepFor ms) fun _ => rfl
  · intro s
    cases direction with
    | upload => exact ⟨_, _, _, rfl⟩
    | download => exact ⟨_, _, _, rfl⟩

/-! ## One peer -/

def Counted (result : PeerDownloadResult) : Prop :=
  result.success = true → result.bytesDownloaded = result.data.length

theorem counted_failure {result : PeerDownloadResult} (h : result.success = false) :
    Counted result := by
  intro hsuccess
  rw [h] at hsuccess
  cases hsuccess

theorem counted_verifyData (H : Sha256) (header : ChunkMessageHeader)
    (expectedSha256 data : Bytes) : Counted (verifyData H header expectedSha256 data) := by
  unfold verifyData
  split
  · exact counted_failure rfl
  · split
    · exact counted_failure rfl
    · exact fun _ => rfl

theorem minor_receiveData (hR : Tolerates R J) (ctx total rounds : Nat) (data : Bytes) :
    Minor R J (receiveData ctx total rounds data) fun outcome =>
      ∀ result, outcome = .error result → result.success = false := by
  induction rounds generalizing data with
  | zero => exact minor_pure fun _ h => nomatch h
  | succ rounds ih =>
      unfold receiveData
      apply minor_ite
      · apply Minor.bind (minor_onTransfer hR fun s => Quiet.refl s)
        intro stopped _
        have haborted : ∀ n result, (Except.error (⟨false, n, []⟩ : PeerDownloadResult) :
            Except PeerDownloadResult Bytes) = .error result → result.success = false := by
          rintro n result h
          cases h
          rfl
        apply minor_ite (minor_closeWith hR (haborted _))
        apply Minor.bind (minor_acquire hR _ _)
        intro _ _
        apply Minor.bind (minor_readExact hR _)
        intro got _
        exact minor_ite (minor_closeWith hR (haborted _)) (ih _)
      · exact minor_pure fun _ h => nomatch h

variable {H : Sha256}

theorem minor_receiveResponse (hR : Tolerates R J) (ctx : Nat) (expectedSha256 : Bytes)
    (header : ChunkMessageHeader) :
    Minor R J (receiveResponse H ctx expectedSha256 header) Counted := by
  apply Minor.bind (minor_readExact hR _)
  intro id _
  apply minor_ite (minor_closeWith hR (counted_failure rfl))
  apply Minor.bind (minor_ask hR (.reserve _) fun _ => rfl)
  intro reserved _
  apply minor_ite (minor_pure (counted_failure rfl))
  apply Minor.bind (minor_receiveData hR _ _ _ _)
  intro received hreceived
  cases received with
  | error result => exact minor_pure (counted_failure (hreceived result rfl))
  | ok data =>
      exact Minor.bind (minor_streamClose hR) fun _ _ => minor_pure (counted_verifyData H _ _ _)

theorem meets_downloadFromPeer_tolerated (hR : Tolerates R J) (ctx : Nat) (peer : PeerNode)
    (expectedSha256 : Bytes) {h : List (Event nodeSignature)} {found s : Node}
    (hs : R.leaves h found s)
    (hJ : ∀ s connected, R.admits h s (.external (.tcpConnect peer.address peer.port)) connected →
      J (h ++ [.external (⟨.tcpConnect peer.address peer.port, connected⟩ : NetExchange)])) :
    (downloadFromPeer H ctx peer expectedSha256).Meets R
      (fun h result found s => R.leaves h found s ∧ J h ∧ Counted result) h found s := by
  refine Meets.bind ⟨hs, hR.waits _ _ _, fun s' connected hadmits => ?_⟩
  have hstart := hR.starts h s' _ connected hadmits
  have hminor : ∀ c : Proc PeerDownloadResult, Minor R J c Counted → c.Meets R
      (fun h result found s => R.leaves h found s ∧ J h ∧ Counted result)
      (h ++ [.external (⟨.tcpConnect peer.address peer.port, connected⟩ : NetExchange)]) s' s' :=
    fun c hc => hc _ s' s' hstart (hJ s' connected hadmits)
  apply hminor
  apply minor_ite (minor_pure (counted_failure rfl))
  apply Minor.bind (minor_onTransfer hR fun s => Quiet.refl s)
  intro context _
  apply Minor.bind (minor_writeMessage hR _ _)
  intro sent _
  apply minor_ite (minor_closeWith hR (counted_failure rfl))
  apply Minor.bind (minor_readHeader hR)
  intro header _
  cases header with
  | none => exact minor_closeWith hR (counted_failure rfl)
  | some header =>
      exact minor_ite (minor_closeWith hR (counted_failure rfl)) (minor_receiveResponse hR _ _ _)

end Minor

end ElioP2P.P2P
