import ElioP2P.P2P.Proofs.Conversations
import ElioP2P.Proxy.Proofs.OwnSections
import ElioP2P.Proxy.Proofs.Requests

/-!
# Honest peers

The tasks of a node that deals with honest peers only: as long as all copies in
its cache are right, it sends nothing else, and all that it downloads or that is
uploaded to it is right again.
-/

namespace ElioP2P.Proxy

open ElioP2P.Library ElioP2P.Library.Coroutine ElioP2P.Cache ElioP2P.Cache.ChunkManager
open ElioP2P.P2P hiding Quiet

/-! ## What the nodes of a cluster rely on -/

structure Upright (T : Truth) (s : Node) : Prop where
  owned : Owned s.transfer
  faultless : s.cache.fileSystem.Faultless
  copies : ∀ id data, Copy s.cache id data → T.right id data

def KeepsContexts (s s' : Node) : Prop :=
  ∀ chunkId ctx, Owns s.transfer chunkId ctx → Owns s'.transfer chunkId ctx

/-- What data is right, how the origin answers, and which requests are made and
how they may be answered. -/
structure Terms where
  truth : Truth
  hash : Sha256
  origin : (e : External) → e.Answer → Prop
  requests : HttpRequest → Prop
  responses : HttpRequest → Handled → Prop

namespace Terms

variable (A : Terms)

def Startable : Job → Node → Prop
  | .request request, _ => A.requests request
  | .downloadFromPeer ctx _ _, s => ∃ chunkId, Owns s.transfer chunkId ctx
  | .uploadChunk chunkId data _, _ => chunkId.length < 2 ^ 32 ∧ A.truth.right chunkId data
  | _, _ => True

def Concludes : Job → List (Event nodeSignature) → JobResult → Node → Prop
  | .request request, _, result, _ =>
      ∀ handled, result = .response handled → A.responses request handled
  | .downloadFromPeer ctx peer expectedSha256, h, result, s =>
      JoinDelivers A.hash peer expectedSha256 ⟨exchangesOf h, result⟩ ∧
        ∀ r, result = .peerDownload r → r.success = true →
          ∃ chunkId, Owns s.transfer chunkId ctx ∧ A.truth.right chunkId r.data
  | .downloadChunk request, _, result, _ =>
      ∀ data, result = .chunk (some data) → A.truth.right request.chunkId data
  | _, _, _, _ => True

def discipline : Discipline nodeSignature where
  invariant := Upright A.truth
  changes := KeepsContexts
  assumes job h s w reply :=
    match w, reply with
    | .external (.streamRead _), bytes => Trusted A.truth A.hash job (streamsOf h).current.sent
        ((streamsOf h).current.received ++ bytes.val)
    | .external e, answer => A.origin e answer
    | .join _ child, finished => ∃ history, finished.exchanges = exchangesOf history ∧
        A.Concludes child history finished.result s
    | .spawn _, _ => True
  permits job h s w :=
    match w with
    | .external (.streamWrite bytes) => MaySend A.truth A.hash job (streamsOf h).current.received
        ((streamsOf h).current.sent ++ bytes)
    | .external (.tcpConnect _ _) => job ≠ .chunkConnection
    | .spawn child => A.Startable child s
    | _ => True
  ends := A.Concludes
  changes_refl _ _ _ h := h
  changes_trans hst htu chunkId ctx h := htu chunkId ctx (hst chunkId ctx h)
  ends_stable {job h result s s'} hchanges hends := by
    cases job with
    | downloadFromPeer ctx peer expectedSha256 =>
        refine ⟨hends.1, fun r hr hsuccess => ?_⟩
        obtain ⟨chunkId, howns, hright⟩ := hends.2 r hr hsuccess
        exact ⟨chunkId, hchanges chunkId ctx howns, hright⟩
    | _ => exact hends
  ends_thrown job h s := by
    cases job with
    | request request => exact fun handled hresult => by cases hresult
    | downloadFromPeer ctx peer expectedSha256 =>
        refine ⟨fun r hr => ?_, fun r hr => ?_⟩
        · cases hr
        · cases hr
    | downloadChunk request => exact fun data hresult => by cases hresult
    | _ => trivial

end Terms

section Honest

variable {A : Terms} {fuel : Nat} {job : Job} {h : List (Event nodeSignature)} {s : Node}
  {α : Type}

theorem owns_unique {t : TransferManager} {chunkId chunkId' : Bytes} {ctx : Nat}
    (h : Owns t chunkId ctx) (h' : Owns t chunkId' ctx) : chunkId = chunkId' := by
  obtain ⟨context, hcontext, hchunk, -⟩ := h
  obtain ⟨context', hcontext', hchunk', -⟩ := h'
  rw [hcontext] at hcontext'
  cases hcontext'
  exact hchunk.symm.trans hchunk'

theorem startable_stable (job : Job) (s s' : Node) (hchanges : KeepsContexts s s')
    (hjob : A.Startable job s) : A.Startable job s' := by
  cases job with
  | downloadFromPeer ctx peer expectedSha256 =>
      obtain ⟨chunkId, howns⟩ := hjob
      exact ⟨chunkId, hchanges chunkId ctx howns⟩
  | _ => exact hjob

/-- A section on the transfers that keeps every context with its chunk. -/
theorem Upright.transfer (hs : Upright A.truth s) {t : TransferManager}
    (howned : Owned s.transfer → Owned t) : Upright A.truth { s with transfer := t } :=
  ⟨howned hs.owned, hs.faultless, hs.copies⟩

theorem Upright.discovery (hs : Upright A.truth s) (d : NodeDiscovery) :
    Upright A.truth { s with discovery := d } :=
  ⟨hs.owned, hs.faultless, hs.copies⟩

theorem owns_of_same {t t' : TransferManager} (hsame : SameContexts t t') {chunkId : Bytes}
    {ctx : Nat} (howns : Owns t chunkId ctx) : Owns t' chunkId ctx :=
  owns_of_contexts hsame.dir hsame.contexts howns

theorem owned_of_same {t t' : TransferManager} (hsame : SameContexts t t') (howned : Owned t) :
    Owned t' := by
  intro chunkId ctx hlookup
  rw [hsame.active] at hlookup
  exact owns_of_same hsame (howned chunkId ctx hlookup)

def Calm (s s' : Node) : Prop := ∃ t, SameContexts s.transfer t ∧ s' = { s with transfer := t }

theorem calm_transfer (s : Node) (t : TransferManager) (hsame : SameContexts s.transfer t) :
    Calm s { s with transfer := t } := ⟨t, hsame, rfl⟩

theorem Calm.keeps {s s' : Node} (h : Calm s s') :
    KeepsContexts s s' ∧ (Upright A.truth s → Upright A.truth s') := by
  obtain ⟨t, hsame, rfl⟩ := h
  exact ⟨fun _ _ howns => owns_of_same hsame howns, fun hs => hs.transfer (owned_of_same hsame)⟩

theorem follows_onTransfer {f : TransferManager → α × TransferManager}
    {post : List (Event nodeSignature) → α → Node → Prop}
    (howns : ∀ chunkId ctx, Owns s.transfer chunkId ctx → Owns (f s.transfer).2 chunkId ctx)
    (hpost : post h (f s.transfer).1 { s with transfer := (f s.transfer).2 }) :
    (onTransfer f).Follows A.discipline job post h s := by
  apply follows_atomically
  intro value s' hf
  cases hf
  exact ⟨howns, hpost⟩

theorem follows_look (f : TransferManager → α) :
    (onTransfer fun t => (f t, t)).Follows A.discipline job
      (fun h' value s' => h' = h ∧ value = f s.transfer ∧ s' = s) h s :=
  follows_onTransfer (fun _ _ howns => howns) ⟨rfl, rfl, rfl⟩

theorem follows_closeWith {result : α} (hs : Upright A.truth s) :
    (closeWith result).Follows A.discipline job
      (fun _ value s' => value = result ∧ Upright A.truth s') h s := by
  refine Follows.seq (follows_ask hs trivial) ?_
  rintro h' _ s' ⟨-, hs', -⟩
  exact ⟨rfl, hs'⟩

/-! ## Listening -/

structure Heard (A : Terms) (job : Job) (out : Bytes) (h : List (Event nodeSignature)) : Prop where
  sent : (streamsOf h).current.sent = out
  trusted : Trusted A.truth A.hash job out (streamsOf h).current.received

theorem Heard.concat {sent : Bytes} {w : Wait nodeSignature} {reply : w.Reply}
    (hheard : Heard A job sent h) (hw : Listening w)
    (hassumes : A.discipline.assumes job h s w reply) : Heard A job sent (h ++ [.of w reply]) := by
  refine ⟨(streamsOf_listening hw reply).1.trans hheard.sent, ?_⟩
  have hquiet : ∀ (e : External) (answer : e.Answer), isConnect ⟨e, answer⟩ = false →
      incoming ⟨e, answer⟩ = [] → Trusted A.truth A.hash job sent
        (streamsOf (h ++ [.external (⟨e, answer⟩ : NetExchange)])).current.received := by
    intro e answer hconnect hincoming
    rw [streamsOf_external, received_after hconnect, hincoming, List.append_nil]
    exact hheard.trusted
  unfold Listening at hw
  split at hw
  · rename_i n
    have hread : Trusted A.truth A.hash job (streamsOf h).current.sent
        ((streamsOf h).current.received ++ reply.val) := hassumes
    rw [hheard.sent] at hread
    change Trusted A.truth A.hash job sent
      (streamsOf (h ++ [.external (⟨.streamRead n, reply⟩ : NetExchange)])).current.received
    rw [streamsOf_external, received_after rfl]
    exact hread
  · exact hquiet .streamClose reply rfl rfl
  · exact hquiet (.reserve _) reply rfl rfl
  · exact hquiet (.sleepFor _) reply rfl rfl
  · exact hw.elim

theorem permits_listening {w : Wait nodeSignature} (hw : Listening w) :
    A.discipline.permits job h s w := by
  unfold Listening at hw
  split at hw
  · trivial
  · trivial
  · trivial
  · trivial
  · exact hw.elim

theorem follows_heard {c : Proc α} {sent : Bytes} (hc : c.Within Listening Calm s)
    (hheard : Heard A job sent h) (hs : Upright A.truth s) :
    c.Follows A.discipline job (fun h _ s => Heard A job sent h ∧ Upright A.truth s) h s :=
  hc.follows (fun _ _ hcalm => hcalm.keeps) (fun _ _ _ _ hw => permits_listening hw)
    (fun _ _ _ _ hheard hw hassumes => hheard.concat hw hassumes) hheard hs

theorem admits_delivery (h : List (Event nodeSignature)) (frame : nodeSignature.Frame)
    (s s' : Node) (w : Wait nodeSignature) (reply : w.Reply)
    (_ : A.discipline.permits job h s w) (hassumes : A.discipline.assumes job h s' w reply) :
    ((deliverySpec A.hash).contract job).admits h frame s' w reply := by
  cases w with
  | external e => trivial
  | spawn child => trivial
  | join id child =>
      obtain ⟨history, hexchanges, hends⟩ := hassumes
      cases child with
      | downloadFromPeer ctx peer expectedSha256 =>
          intro result hresult hsuccess
          rw [hexchanges]
          exact hends.1 result hresult hsuccess
      | _ => trivial

theorem follows_guaranteed {c : Proc α} {post : List (Event nodeSignature) → α → Node → Prop}
    {Q : List (Event nodeSignature) → α → Prop} (hc : c.Follows A.discipline job post h s)
    (hguarantees : Guarantees ((deliverySpec A.hash).contract job) (fun _ _ _ => True) none c Q) :
    c.Follows A.discipline job
      (fun h' value s => post h' value s ∧ ∃ new, h' = h ++ new ∧ Q new value) h s :=
  hc.and_guarantees hguarantees (fun _ _ => trivial) admits_delivery

/-! ## Sending -/

structure At (h : List (Event nodeSignature)) (inp out : Bytes) : Prop where
  received : (streamsOf h).current.received = inp
  sent : (streamsOf h).current.sent = out

theorem at_connected (address : Bytes) (port : UInt16) :
    At (h ++ [.external (⟨.tcpConnect address port, true⟩ : NetExchange)]) [] [] := by
  refine ⟨?_, ?_⟩
  · rw [streamsOf_connected]
  · rw [streamsOf_connected]

theorem At.quiet {received sent : Bytes} (hat : At h received sent) {e : External}
    (answer : e.Answer) (hconnect : isConnect ⟨e, answer⟩ = false)
    (hport : nodePort e = .elsewhere) :
    At (h ++ [.external (⟨e, answer⟩ : NetExchange)]) received sent := by
  refine ⟨?_, ?_⟩
  · rw [streamsOf_quiet (connects_of_isConnect hconnect), hport]
    exact hat.received
  · rw [streamsOf_quiet (connects_of_isConnect hconnect), hport]
    exact hat.sent

theorem At.write {received sent bytes : Bytes} (hat : At h received sent)
    (count : Fin (bytes.length + 1)) :
    At (h ++ [.external (⟨.streamWrite bytes, count⟩ : NetExchange)]) received
      (sent ++ bytes.take count.val) := by
  have hafter := @streamsOf_quiet h (.streamWrite bytes) count rfl
  refine ⟨?_, ?_⟩
  · rw [hafter]
    exact hat.received
  · rw [hafter]
    exact congrArg (· ++ bytes.take count.val) hat.sent

def Sent (A : Terms) (received sent : Bytes) (h : List (Event nodeSignature)) (ok : Bool)
    (s : Node) : Prop := Upright A.truth s ∧ (ok = true → At h received sent)

theorem follows_writeLoop {received sent : Bytes} {rounds : Nat} {rest : Bytes}
    (hrounds : rest.length ≤ rounds) (hat : At h received sent)
    (hmay : MaySend A.truth A.hash job received (sent ++ rest)) (hs : Upright A.truth s) :
    (writeLoop rounds rest).Follows A.discipline job (Sent A received (sent ++ rest)) h s := by
  induction rounds generalizing rest sent h s with
  | zero =>
      have hnil : rest = [] := List.eq_nil_of_length_eq_zero (by omega)
      subst hnil
      exact ⟨hs, fun _ => by rwa [List.append_nil]⟩
  | succ rounds ih =>
      unfold writeLoop
      split
      · rename_i hempty
        rw [List.isEmpty_iff.mp hempty, List.append_nil]
        exact ⟨hs, fun _ => hat⟩
      · rename_i hne
        have hpermits : A.discipline.permits job h s (.external (.streamWrite rest)) := by
          change MaySend A.truth A.hash job _ _
          rw [hat.received, hat.sent]
          exact hmay
        refine Follows.seq (follows_ask hs hpermits) ?_
        rintro h' count s' ⟨rfl, hs', -⟩
        split
        · exact ⟨hs', fun hok => absurd hok Bool.false_ne_true⟩
        · rename_i hcount
          have hpos : 0 < count.val := Nat.pos_of_ne_zero hcount
          have hlength : 0 < rest.length := List.length_pos_of_ne_nil (by simpa using hne)
          have hall : sent ++ rest = sent ++ rest.take count.val ++ rest.drop count.val := by
            rw [List.append_assoc, List.take_append_drop]
          rw [hall] at hmay ⊢
          exact ih (by rw [List.length_drop]; omega) (hat.write count) hmay hs'

theorem follows_writeExact {received sent bytes : Bytes} (hat : At h received sent)
    (hmay : MaySend A.truth A.hash job received (sent ++ bytes)) (hs : Upright A.truth s) :
    (writeExact bytes).Follows A.discipline job (Sent A received (sent ++ bytes)) h s :=
  follows_writeLoop (Nat.le_refl _) hat hmay hs

theorem follows_writeMessage {received sent : Bytes} {header : ChunkMessageHeader}
    {chunkId : Bytes} (hat : At h received sent)
    (hmay : MaySend A.truth A.hash job received (sent ++ (headerBytes header ++ chunkId)))
    (hs : Upright A.truth s) :
    (writeMessage header chunkId).Follows A.discipline job
      (Sent A received (sent ++ (headerBytes header ++ chunkId))) h s := by
  rw [← List.append_assoc] at hmay ⊢
  refine Follows.seq (follows_writeExact hat (hmay.mono (List.prefix_append _ _)) hs) ?_
  rintro h' ok s' ⟨hs', hat'⟩
  split
  · rename_i hok
    exact follows_writeExact (hat' hok) hmay hs'
  · exact ⟨hs', fun hok => absurd hok Bool.false_ne_true⟩

theorem follows_acquire {received sent : Bytes} (hat : At h received sent) (hs : Upright A.truth s)
    (direction : Direction) (bytes : Nat) :
    (acquire direction bytes).Follows A.discipline job
      (fun h _ s => At h received sent ∧ Upright A.truth s) h s := by
  have hwithin : (acquire direction bytes).Within
      (fun w : Wait nodeSignature => ∃ ms, w = .external (External.sleepFor ms)) Calm s :=
    within_acquire calm_transfer _ _ fun ms => ⟨ms, rfl⟩
  refine hwithin.follows (fun _ _ hcalm => hcalm.keeps) ?_ ?_ hat hs
  · rintro h s w - ⟨ms, rfl⟩
    trivial
  · rintro h s w reply hat ⟨ms, rfl⟩ -
    exact @At.quiet h _ _ hat (.sleepFor ms) reply rfl rfl

theorem follows_sendSlices {received sent : Bytes} {rounds : Nat} {rest : Bytes}
    (hrounds : rest.length ≤ rounds) (hat : At h received sent)
    (hmay : MaySend A.truth A.hash job received (sent ++ rest)) (hs : Upright A.truth s) :
    (sendSlices rounds rest).Follows A.discipline job (Sent A received (sent ++ rest)) h s := by
  induction rounds generalizing rest sent h s with
  | zero =>
      have hnil : rest = [] := List.eq_nil_of_length_eq_zero (by omega)
      subst hnil
      exact ⟨hs, fun _ => by rwa [List.append_nil]⟩
  | succ rounds ih =>
      have hall : sent ++ rest = sent ++ rest.take sliceSize ++ rest.drop sliceSize := by
        rw [List.append_assoc, List.take_append_drop]
      unfold sendSlices
      split
      · rename_i hempty
        rw [List.isEmpty_iff.mp hempty, List.append_nil]
        exact ⟨hs, fun _ => hat⟩
      · rename_i hne
        have hlength : 0 < rest.length := List.length_pos_of_ne_nil (by simpa using hne)
        rw [hall] at hmay ⊢
        refine Follows.seq (follows_acquire hat hs .upload _) ?_
        rintro h' _ s' ⟨hat', hs'⟩
        refine Follows.seq (follows_writeExact hat' (hmay.mono (List.prefix_append _ _)) hs') ?_
        rintro h' ok s' ⟨hs', hat'⟩
        split
        · rename_i hok
          refine ih ?_ (hat' hok) hmay hs'
          rw [List.length_drop, sliceSize]
          omega
        · exact ⟨hs', fun hok => absurd hok Bool.false_ne_true⟩

/-! ## Downloads -/

theorem follows_exchange {ctx : Nat} {chunkId : Bytes} (hjob : job ≠ .chunkConnection)
    (howns : Owns s.transfer chunkId ctx) (hs : Upright A.truth s) (peer : PeerNode)
    (expectedSha256 : Bytes) :
    (downloadFromPeer A.hash ctx peer expectedSha256).Follows A.discipline job
      (fun h result s => Upright A.truth s ∧ (result.success = true →
        ∃ context, context.chunkId = chunkId ∧ Heard A job (requestBytes context) h)) h s := by
  have hfailed : ∀ {h s}, Upright A.truth s →
      (closeWith ({} : PeerDownloadResult)).Follows A.discipline job
        (fun h result s => Upright A.truth s ∧ (result.success = true →
          ∃ context, context.chunkId = chunkId ∧ Heard A job (requestBytes context) h)) h s := by
    intro h s hs
    refine (follows_closeWith hs).mono ?_
    rintro h' result s' ⟨rfl, hs'⟩
    exact ⟨hs', fun hsuccess => absurd hsuccess Bool.false_ne_true⟩
  refine Follows.seq (follows_ask hs hjob) ?_
  rintro h' connected s' ⟨rfl, hs', hkept, -⟩
  have howns' := hkept chunkId ctx howns
  split
  · exact ⟨hs', fun hsuccess => absurd hsuccess Bool.false_ne_true⟩
  · rename_i hconnected
    have hopen : connected = true := by simpa using hconnected
    subst hopen
    obtain ⟨context, hcontext, hchunk, -⟩ := howns'
    refine (follows_look _).seq ?_
    rintro h' value s' ⟨rfl, hvalue, rfl⟩
    rw [hcontext, Option.getD_some] at hvalue
    subst hvalue
    have hmay : MaySend A.truth A.hash job []
        ([] ++ (headerBytes (requestHeader value) ++ value.chunkId)) :=
      maySend_of_message hjob (.request value) []
    refine Follows.seq (follows_writeMessage (at_connected _ _) hmay hs') ?_
    rintro h' sent s' ⟨hs', hsent⟩
    split
    · exact hfailed hs'
    · rename_i hok
      have hheard : Heard A job (requestBytes value) h' := by
        refine ⟨(hsent (by simpa using hok)).sent, ?_⟩
        rw [(hsent (by simpa using hok)).received]
        exact trusted_nil job _
      refine (follows_heard (within_reply calm_transfer (fun _ hw => hw) ctx expectedSha256)
        hheard hs').mono ?_
      rintro h' result s' ⟨hheard, hs'⟩
      exact ⟨hs', fun _ => ⟨value, hchunk, hheard⟩⟩

theorem follows_downloadFromPeer {ctx : Nat} {chunkId : Bytes} (hjob : job ≠ .chunkConnection)
    (howns : Owns s.transfer chunkId ctx) (hs : Upright A.truth s) (peer : PeerNode)
    (expectedSha256 : Bytes) :
    (downloadFromPeer A.hash ctx peer expectedSha256).Follows A.discipline job
      (fun h' result s => Upright A.truth s ∧ Owns s.transfer chunkId ctx ∧
        (result.success = true → A.truth.right chunkId result.data) ∧
        ∃ new, h' = h ++ new ∧ (result.success = true →
          Delivered A.hash peer expectedSha256 (exchangesOf new) result.data)) h s := by
  refine (follows_guaranteed (follows_exchange hjob howns hs peer expectedSha256).changed
    (guarantees_downloadFromPeer (transferContract_delivery job) ctx peer expectedSha256)).mono ?_
  rintro h' result s' ⟨⟨⟨hs', hheard⟩, hkept⟩, new, rfl, hdelivered⟩
  refine ⟨hs', hkept chunkId ctx howns, fun hsuccess => ?_, new, rfl, hdelivered⟩
  obtain ⟨context, rfl, hlistened⟩ := hheard hsuccess
  obtain ⟨-, before, after, hexchanges, hquiet, hcomplete⟩ := hdelivered hsuccess
  have hconnected : exchangesOf (h ++ new) =
      (exchangesOf h ++ before) ++ ⟨.tcpConnect peer.address peer.port, true⟩ :: after := by
    rw [exchangesOf_append, hexchanges, List.append_assoc]
  rw [← received_of_connected hconnected hquiet] at hcomplete
  exact right_of_complete hjob hlistened.trusted hcomplete

structure Ongoing (A : Terms) (chunkId : Bytes) (ctx : Nat) (s : Node) : Prop where
  upright : Upright A.truth s
  owns : Owns s.transfer chunkId ctx

def Fetched (A : Terms) (chunkId : Bytes) (result : Option Bytes) : Prop :=
  ∀ data, result = some data → A.truth.right chunkId data

theorem fetched_none (chunkId : Bytes) : Fetched A chunkId none := fun _ h => by cases h

theorem fetched_some {chunkId data : Bytes} (h : A.truth.right chunkId data) :
    Fetched A chunkId (some data) := by
  intro data' hdata
  cases hdata
  exact h

section Race

variable {chunkId : Bytes} {ctx : Nat}

theorem Ongoing.changed {s' : Node} (h : Ongoing A chunkId ctx s) (hs' : Upright A.truth s')
    (hkept : KeepsContexts s s') : Ongoing A chunkId ctx s' :=
  ⟨hs', hkept chunkId ctx h.owns⟩

theorem follows_adopt (hs : Ongoing A chunkId ctx s) (result : PeerDownloadResult) :
    (adopt ctx result).Follows A.discipline job (fun _ _ s => Ongoing A chunkId ctx s) h s := by
  have hchanges := changesOnly_updateContext hs.owns
    (f := fun c => { c with stopFlag := true, downloadedSize := result.bytesDownloaded })
    fun _ => ⟨rfl, rfl⟩
  exact follows_onTransfer hchanges.owns
    ⟨hs.upright.transfer hchanges.owned, hchanges.owns _ _ hs.owns⟩

theorem follows_spawnDownloads (hs : Ongoing A chunkId ctx s) (expectedSha256 : Bytes)
    (peers : List PeerNode) :
    (spawnDownloads ctx expectedSha256 peers).Follows A.discipline job
      (fun _ _ s => Ongoing A chunkId ctx s) h s := by
  induction peers generalizing h s with
  | nil => exact hs
  | cons peer peers ih =>
      refine Follows.seq (follows_spawn hs.upright ⟨chunkId, hs.owns⟩) ?_
      rintro h' id s' ⟨hs', hkept⟩
      exact (ih (hs.changed hs' hkept)).seq fun _ _ _ hs'' => hs''

theorem follows_joinDownload (hs : Ongoing A chunkId ctx s) (expectedSha256 : Bytes)
    (handle : Nat × PeerNode) :
    (joinDownload ctx expectedSha256 handle).Follows A.discipline job
      (fun _ result s => Ongoing A chunkId ctx s ∧
        (result.success = true → A.truth.right chunkId result.data)) h s := by
  refine Follows.seq (follows_join hs.upright trivial) ?_
  rintro h' finished s' ⟨hs', hkept, history, -, -, hright⟩
  have hongoing := hs.changed hs' hkept
  split
  · rename_i result hresult
    refine ⟨hongoing, fun hsuccess => ?_⟩
    obtain ⟨chunkId', howns, hdata⟩ := hright result hresult hsuccess
    rwa [owns_unique hongoing.owns howns]
  · trivial

theorem follows_joinDownloads (hs : Ongoing A chunkId ctx s) (expectedSha256 : Bytes)
    (handles : List (Nat × PeerNode)) {winner : Option Bytes} (hwinner : Fetched A chunkId winner) :
    (joinDownloads ctx expectedSha256 handles winner).Follows A.discipline job
      (fun _ result s => Ongoing A chunkId ctx s ∧ Fetched A chunkId result) h s := by
  induction handles generalizing winner h s with
  | nil => exact ⟨hs, hwinner⟩
  | cons handle handles ih =>
      refine Follows.seq (follows_joinDownload hs expectedSha256 handle) ?_
      rintro h' result s' ⟨hs', hright⟩
      split
      · rename_i hwins
        simp only [Bool.and_eq_true] at hwins
        refine Follows.seq (follows_adopt hs' result) ?_
        intro h'' _ s'' hs''
        exact ih hs'' (fetched_some (hright hwins.2))
      · exact ih hs' hwinner

theorem follows_tryFallback (hjob : job ≠ .chunkConnection) (hs : Ongoing A chunkId ctx s)
    (expectedSha256 : Bytes) (peers : List PeerNode) :
    (tryFallback A.hash ctx expectedSha256 peers).Follows A.discipline job
      (fun _ result s => Ongoing A chunkId ctx s ∧ Fetched A chunkId result) h s := by
  induction peers generalizing h s with
  | nil => exact ⟨hs, fetched_none chunkId⟩
  | cons peer peers ih =>
      refine (follows_look _).seq ?_
      rintro _ stopped _ ⟨rfl, -, rfl⟩
      split
      · exact ⟨hs, fetched_none chunkId⟩
      · refine Follows.seq
          (follows_downloadFromPeer hjob hs.owns hs.upright peer expectedSha256) ?_
        rintro h' result s' ⟨hupright, howns, hright, -⟩
        split
        · rename_i hsuccess
          refine (follows_adopt ⟨hupright, howns⟩ result).seq ?_
          intro h'' _ s'' hs''
          exact ⟨hs'', fetched_some (hright hsuccess)⟩
        · exact ih ⟨hupright, howns⟩

theorem follows_raceDownloads (hjob : job ≠ .chunkConnection) (hs : Ongoing A chunkId ctx s)
    (expectedSha256 : Bytes) (candidates selected : List PeerNode) :
    (raceDownloads A.hash ctx expectedSha256 candidates selected).Follows A.discipline job
      (fun _ result s => Ongoing A chunkId ctx s ∧ Fetched A chunkId result) h s := by
  refine (follows_spawnDownloads hs expectedSha256 selected).seq ?_
  intro h' handles s' hs'
  refine (follows_joinDownloads hs' expectedSha256 handles (fetched_none chunkId)).seq ?_
  rintro h'' joined s'' ⟨hs'', hjoined⟩
  cases joined with
  | none => exact follows_tryFallback hjob hs'' expectedSha256 _
  | some data => exact ⟨hs'', hjoined⟩

end Race

theorem follows_beginDownload (hs : Upright A.truth s) (request : TransferRequest) :
    (Coroutine.atomically (S := nodeSignature) fun s : Node =>
      some (beginDownload request s)).Follows A.discipline job
      (fun _ begun s => Upright A.truth s ∧ ∀ ctx candidates selected,
        begun = .race ctx candidates selected → Ongoing A request.chunkId ctx s) h s := by
  apply follows_atomically
  intro begun s' hbegun
  have hpair : beginDownload request s = (begun, s') := Option.some.inj hbegun
  obtain ⟨hchanges, howns⟩ := changesOnly_beginDownload hs.owned request
  have hupright : Upright A.truth (beginDownload request s).2 := by
    obtain ⟨transfer, discovery, hkept⟩ := beginDownload_keeps request s
    refine ⟨hchanges.owned hs.owned, ?_, ?_⟩
    · rw [hkept]
      exact hs.faultless
    · rw [hkept]
      exact hs.copies
  have hbegins := beginDownload_cases request s
  rw [hpair] at hchanges howns hupright hbegins
  refine ⟨hchanges.owns, hupright, fun ctx candidates selected hraces => ⟨hupright, ?_⟩⟩
  subst hraces
  rcases hbegins with ⟨-, hnone | hnone⟩ | ⟨-, selected, hselected, -⟩
  · cases hnone
  · cases hnone
  · cases hselected
    exact howns

/-- Whatever the race does, only right data is handed out. -/
theorem follows_downloadChunk (hjob : job ≠ .chunkConnection) (hs : Upright A.truth s)
    (request : TransferRequest) :
    (downloadChunk A.hash request).Follows A.discipline job
      (fun _ result s => Upright A.truth s ∧ Fetched A request.chunkId result) h s := by
  refine (follows_look _).seq ?_
  rintro _ running _ ⟨rfl, -, rfl⟩
  split
  · exact ⟨hs, fetched_none _⟩
  · refine (follows_beginDownload hs request).seq ?_
    rintro h' begun s' ⟨hs', hongoing⟩
    cases begun with
    | unreserved => exact hs'
    | nobody => exact ⟨hs', fetched_none _⟩
    | race ctx candidates selected =>
        refine (follows_raceDownloads hjob (hongoing ctx _ _ rfl) _ candidates selected).seq ?_
        rintro h'' result s'' ⟨hs'', hfetched⟩
        have hended := changesOnly_endDownload hs''.owns result
        have hclosed : (onTransfer (endDownload request.chunkId ctx result)).Follows
            A.discipline job (fun _ _ s => Upright A.truth s) h'' s'' :=
          follows_onTransfer hended.owns (hs''.upright.transfer hended.owned)
        refine hclosed.seq fun _ ended _ hs₃ => ?_
        split
        · exact ⟨hs₃, hfetched⟩
        · exact hs₃

end Honest

end ElioP2P.Proxy
