import ElioP2P.P2P.Proofs.Sections
import ElioP2P.P2P.Proofs.Streams

/-!
# Downloads from peers that deliver

A supplier is a peer that, on every connection, takes the request and sends a
complete response with verified data, in whatever pieces.  A download from a
supplier can only fail by finding the stop flag of its context up.  The
judgements here are total: with suppliers that answer and other peers that do
what they like, `download_from_peer` and `download_chunk` come to their end.
-/

namespace ElioP2P.P2P

open ElioP2P.Library ElioP2P.Library.Coroutine ElioP2P.Proxy

/-! ## Conversations -/

/-- The peer that a task talks to, and what has come in from it. -/
structure Conversation where
  address : Bytes
  port : UInt16
  received : Bytes

def Conversation.hear : Option Conversation → NetExchange → Option Conversation
  | _, ⟨.tcpConnect address port, ok⟩ =>
      if (show Bool from ok) then some ⟨address, port, []⟩ else none
  | c, x => c.map fun c => { c with received := c.received ++ incoming x }

def conversation (h : List (Event nodeSignature)) : Option Conversation :=
  (exchangesOf h).foldl Conversation.hear none

theorem conversation_external (h : List (Event nodeSignature)) (x : NetExchange) :
    conversation (h ++ [.external x]) = Conversation.hear (conversation h) x := by
  have hlast : exchangesOf [(.external x : Event nodeSignature)] = [x] := rfl
  rw [conversation, exchangesOf_append, hlast, List.foldl_append]
  rfl

theorem conversation_quiet {h : List (Event nodeSignature)} {x : NetExchange}
    (hconnect : isConnect x = false) (hincoming : incoming x = []) :
    conversation (h ++ [.external x]) = conversation h := by
  rw [conversation_external]
  obtain ⟨e, answer⟩ := x
  cases e with
  | tcpConnect address port => cases hconnect
  | _ =>
      simp only [Conversation.hear, hincoming, List.append_nil]
      exact Option.map_id'

theorem conversation_streamRead (h : List (Event nodeSignature)) (n : Nat)
    (r : { bytes : Bytes // bytes.length ≤ n }) :
    conversation (h ++ [.external (⟨.streamRead n, r⟩ : NetExchange)]) =
      (conversation h).map fun c => { c with received := c.received ++ r.val } :=
  conversation_external h _

theorem conversation_tcpConnect (h : List (Event nodeSignature)) (address : Bytes)
    (port : UInt16) :
    conversation (h ++ [.external (⟨.tcpConnect address port, true⟩ : NetExchange)]) =
      some ⟨address, port, []⟩ :=
  conversation_external h _

/-! ## Suppliers -/

section Suppliers

variable (H : Sha256)

/-- The bytes are a complete response whose data has the expected hash, if there
is one. -/
def Verified (expectedSha256 bytes : Bytes) : Prop :=
  ∃ data, CompleteResponse H bytes data ∧ (expectedSha256 ≠ [] → H.hex data = expectedSha256)

structure Suppliers where
  delivers : (expectedSha256 address : Bytes) → (port : UInt16) → Prop
  response : ∀ expectedSha256 address port, delivers expectedSha256 address port →
    ∃ stream, Verified H expectedSha256 stream

/-- How a connection goes on that a supplier has answered so far with
`received`: reads bring at least one byte until the response is complete, writes
are taken, and there is room for the data. -/
def NextFromSupplier (expectedSha256 received : Bytes) : NetExchange → Prop
  | ⟨.streamRead _, r⟩ => (∃ stream, Verified H expectedSha256 stream ∧
      received ++ r.val <+: stream) ∧ (r.val = [] → Verified H expectedSha256 received)
  | ⟨.streamWrite _, count⟩ => count.val ≠ 0
  | ⟨.reserve _, ok⟩ => ok = true
  | _ => True

/-- Suppliers accept connections and go on as they should; about other peers
nothing is said. -/
structure Suppliers.Answers {H : Sha256} (net : Suppliers H) (expectedSha256 : Bytes)
    (h : List (Event nodeSignature)) (x : NetExchange) : Prop where
  connects : ∀ address port, x = ⟨.tcpConnect address port, false⟩ →
    ¬net.delivers expectedSha256 address port
  goes_on : ∀ c, conversation h = some c → net.delivers expectedSha256 c.address c.port →
    NextFromSupplier H expectedSha256 c.received x

def Suppliers.nobody : Suppliers H := ⟨fun _ _ _ => False, fun _ _ _ h => h.elim⟩

def HasResponse (expectedSha256 : Bytes) (h : List (Event nodeSignature)) : Prop :=
  ∃ c, conversation h = some c ∧ Verified H expectedSha256 c.received

variable {H}

theorem answers_nobody {expectedSha256 : Bytes} {h : List (Event nodeSignature)} {x : NetExchange} :
    (Suppliers.nobody H).Answers expectedSha256 h x :=
  ⟨fun _ _ _ => id, fun _ _ h => h.elim⟩

theorem Verified.exists_header {expectedSha256 bytes : Bytes}
    (h : Verified H expectedSha256 bytes) :
    ∃ header rest, bytes = headerBytes header ++ rest ∧ header.magic = chunkTransferMagic ∧
      header.messageType = ChunkMessageType.response.toUInt32 ∧
      rest.length = echoedLength header + header.dataLength.toNat := by
  obtain ⟨data, ⟨header, id, rfl, hmagic, htype, hid, hlength, -⟩, -⟩ := h
  refine ⟨header, id ++ data, by rw [List.append_assoc], hmagic, htype, ?_⟩
  rw [List.length_append, hid, hlength]

theorem Verified.length_eq {expectedSha256 rest : Bytes} {header : ChunkMessageHeader}
    (h : Verified H expectedSha256 (headerBytes header ++ rest)) :
    rest.length = echoedLength header + header.dataLength.toNat := by
  obtain ⟨header', rest', heq, -, -, hlength⟩ := h.exists_header
  obtain ⟨hheader, rfl⟩ := List.append_inj heq (by rw [length_headerBytes, length_headerBytes])
  rw [headerBytes_injective hheader]
  exact hlength

theorem Verified.kind {expectedSha256 rest : Bytes} {header : ChunkMessageHeader}
    (h : Verified H expectedSha256 (headerBytes header ++ rest)) :
    header.magic = chunkTransferMagic ∧
      header.messageType = ChunkMessageType.response.toUInt32 := by
  obtain ⟨header', rest', heq, hmagic, htype, -⟩ := h.exists_header
  obtain ⟨hheader, rfl⟩ := List.append_inj heq (by rw [length_headerBytes, length_headerBytes])
  rw [headerBytes_injective hheader]
  exact ⟨hmagic, htype⟩

theorem Verified.size_le {expectedSha256 bytes : Bytes} (h : Verified H expectedSha256 bytes) :
    ChunkMessageHeader.size ≤ bytes.length := by
  obtain ⟨header, rest, rfl, -⟩ := h.exists_header
  rw [List.length_append, length_headerBytes]
  exact Nat.le_add_right _ _

/-- Complete data behind an acceptable header passes the checks exactly if the
response is verified. -/
theorem verifyData_success_iff {header : ChunkMessageHeader} {expectedSha256 id data : Bytes}
    (hmagic : header.magic = chunkTransferMagic)
    (htype : header.messageType = ChunkMessageType.response.toUInt32)
    (hid : id.length = echoedLength header) (hdata : data.length = header.dataLength.toNat) :
    (verifyData H header expectedSha256 data).success = true ↔
      Verified H expectedSha256 (headerBytes header ++ (id ++ data)) := by
  constructor
  · intro hsuccess
    obtain ⟨-, hhash, hexpected⟩ := verifyData_success hsuccess
    refine ⟨data, ⟨header, id, by rw [List.append_assoc], hmagic, htype, hid, hdata.symm, hhash⟩,
      hexpected⟩
  · rintro ⟨data', ⟨header', id', heq, -, -, hid', hdata', hhash⟩, hexpected⟩
    rw [List.append_assoc] at heq
    obtain ⟨hheader, hrest⟩ := List.append_inj heq
      (by rw [length_headerBytes, length_headerBytes])
    cases headerBytes_injective hheader
    obtain ⟨-, rfl⟩ := List.append_inj hrest (by rw [hid, hid'])
    rw [verifyData, if_neg (by simp [hhash]), if_neg]
    by_cases hnil : expectedSha256 = []
    · simp [hnil]
    · simp [hexpected hnil]

end Suppliers

/-! ## Stop flags -/

def Clear (ctx : Option Nat) (s : Node) : Prop :=
  ∀ c ∈ ctx, s.transfer.running = true ∧ s.transfer.isStopped c = false

theorem clear_none (s : Node) : Clear none s := fun _ hc => nomatch hc

theorem clear_some {c : Nat} {s : Node} (hrunning : s.transfer.running = true)
    (hclear : s.transfer.isStopped c = false) : Clear (some c) s := by
  rintro c' hc'
  cases hc'
  exact ⟨hrunning, hclear⟩

structure Still (s s' : Node) : Prop where
  running : s'.transfer.running = s.transfer.running
  flags : ∀ ctx, s'.transfer.isStopped ctx = s.transfer.isStopped ctx

/-- Stop flags have only been raised, and only if `wins`. -/
structure Raises (wins : Prop) (s s' : Node) : Prop where
  running : s'.transfer.running = s.transfer.running
  kept : ∀ ctx, s.transfer.isStopped ctx = true → s'.transfer.isStopped ctx = true
  raised : ∀ ctx, s'.transfer.isStopped ctx = true → s.transfer.isStopped ctx = true ∨ wins

theorem Raises.refl (wins : Prop) (s : Node) : Raises wins s s :=
  ⟨rfl, fun _ h => h, fun _ h => Or.inl h⟩

theorem Raises.still {wins : Prop} {s s' s'' : Node} (h : Raises wins s s') (h' : Still s' s'') :
    Raises wins s s'' where
  running := h'.running.trans h.running
  kept ctx hctx := by
    rw [h'.flags]
    exact h.kept ctx hctx
  raised ctx hctx := by
    rw [h'.flags] at hctx
    exact h.raised ctx hctx

theorem Clear.still {ctx : Option Nat} {s s' : Node} (h : Clear ctx s) (h' : Still s s') :
    Clear ctx s' := by
  intro c hc
  rw [h'.running, h'.flags]
  exact h c hc

theorem still_of_contexts {s : Node} {t : TransferManager}
    (hrunning : t.running = s.transfer.running) (hcontexts : t.contexts = s.transfer.contexts) :
    Still s { s with transfer := t } where
  running := hrunning
  flags ctx := by
    simp only [TransferManager.isStopped, hcontexts]

/-! ## What downloads assume and promise -/

inductive Role where
  | peerDownload
  | call

/-- The last event has brought a verified copy: a response that was complete
when its connection was closed. -/
def ClosesResponse (H : Sha256) (expectedSha256 : Bytes) (h : List (Event nodeSignature)) : Prop :=
  ∃ before, h = before ++ [.external (⟨.streamClose, ()⟩ : NetExchange)] ∧
    HasResponse H expectedSha256 before

def Brought : Event nodeSignature → Prop
  | .joined _ _ ⟨_, .peerDownload result⟩ => result.success = true
  | _ => False

def Won (h : List (Event nodeSignature)) : Prop :=
  ∃ id job finished, .spawned id job ∈ h ∧ .joined id job finished ∈ h ∧
    Brought (.joined id job finished)

def Role.Wins (H : Sha256) (expectedSha256 : Bytes) (h : List (Event nodeSignature)) :
    Role → Prop
  | .peerDownload => False
  | .call =>
      ClosesResponse H expectedSha256 h ∨ ∃ before event, h = before ++ [event] ∧ Brought event

/-- What joining tells: a download has ended, and with success if its context
is the given one and its peer delivers. -/
def Suppliers.Joined {H : Sha256} (net : Suppliers H) (ctx : Option Nat) :
    Job → JobResult → Prop
  | .downloadFromPeer c peer expectedSha256, .peerDownload result =>
      c ∈ ctx → net.delivers expectedSha256 peer.address peer.port → result.success = true
  | _, _ => False

/-- A download that finds the stop flag of its context clear wherever it goes
on, except where it closes a connection over which all has come in.  Exceptions
only leave calls. -/
def downloads {H : Sha256} (net : Suppliers H) (role : Role) (expectedSha256 : Bytes)
    (ctx : Option Nat) : Regime nodeSignature where
  begins := Clear ctx
  admits h s w reply :=
    (Clear ctx s ∨ w = .external .streamClose ∧ HasResponse H expectedSha256 h) ∧
      match w, reply with
      | .external e, answer => net.Answers expectedSha256 h ⟨e, answer⟩
      | .spawn _, _ => True
      | .join _ job, finished => net.Joined ctx job finished.result
  leaves h found s := Raises (role.Wins H expectedSha256 h) found s
  throws h found s := role = .call ∧ Raises (role.Wins H expectedSha256 h) found s
  waits h s w :=
    (Clear ctx s ∨ Won h) ∧
      match w with
      | .external e => ∃ answer, net.Answers expectedSha256 h ⟨e, answer⟩
      | .spawn job => role = .call ∧ ∃ c peer, job = .downloadFromPeer c peer expectedSha256
      | .join id job => role = .call ∧ (∃ c peer, job = .downloadFromPeer c peer expectedSha256) ∧
          .spawned id job ∈ h

section Routines

variable {H : Sha256} {net : Suppliers H} {role : Role} {expectedSha256 : Bytes}
  {ctx : Option Nat} {J J' : List (Event nodeSignature) → Prop} {h : List (Event nodeSignature)}
  {found s : Node} {address : Bytes} {port : UInt16}

def Lasting (J : List (Event nodeSignature) → Prop) : Prop :=
  ∀ h (x : NetExchange), isConnect x = false → J h → J (h ++ [.external x])

structure Settled (H : Sha256) (role : Role) (expectedSha256 : Bytes) (ctx : Option Nat)
    (J : List (Event nodeSignature) → Prop) (h : List (Event nodeSignature)) (found s : Node) :
    Prop where
  leaves : Raises (role.Wins H expectedSha256 h) found s
  clear : Clear ctx s
  known : J h

theorem Settled.still {s' : Node} (hs : Settled H role expectedSha256 ctx J h found s)
    (hstill : Still s s') : Settled H role expectedSha256 ctx J h found s' :=
  ⟨hs.leaves.still hstill, hs.clear.still hstill, hs.known⟩

theorem settled_start (hclear : Clear ctx s) (hknown : J h) :
    Settled H role expectedSha256 ctx J h s s :=
  ⟨Raises.refl _ s, hclear, hknown⟩

structure Talk (net : Suppliers H) (expectedSha256 : Bytes) (h : List (Event nodeSignature))
    (address : Bytes) (port : UInt16) (received : Bytes) : Prop where
  now : conversation h = some ⟨address, port, received⟩
  begins : net.delivers expectedSha256 address port →
    ∃ stream, Verified H expectedSha256 stream ∧ received <+: stream

/-! ## Single exchanges -/

theorem meets_exchange {e : External}
    {post : List (Event nodeSignature) → e.Answer → Node → Node → Prop}
    (hJ : ∀ answer, J h → J' (h ++ [.external (⟨e, answer⟩ : NetExchange)]))
    (hs : Settled H role expectedSha256 ctx J h found s) (he : e ≠ .streamClose)
    (hanswer : ∃ answer, net.Answers expectedSha256 h ⟨e, answer⟩)
    (hpost : ∀ answer s', net.Answers expectedSha256 h ⟨e, answer⟩ →
      Settled H role expectedSha256 ctx J' (h ++ [.external (⟨e, answer⟩ : NetExchange)]) s' s' →
        post (h ++ [.external (⟨e, answer⟩ : NetExchange)]) answer s' s') :
    (Coroutine.ask (S := nodeSignature) e).Meets (downloads net role expectedSha256 ctx) post h
      found s := by
  refine ⟨hs.leaves, ⟨Or.inl hs.clear, hanswer⟩, fun s' answer hadmits => ?_⟩
  obtain ⟨hclear | ⟨hclose, -⟩, hanswers⟩ := hadmits
  · exact hpost answer s' hanswers (settled_start hclear (hJ answer hs.known))
  · cases hclose
    exact absurd rfl he

/-- Closing may find the flag up if all has come in. -/
theorem meets_streamClose {post : List (Event nodeSignature) → Unit → Node → Node → Prop}
    (hs : Settled H role expectedSha256 ctx J h found s)
    (hpost : ∀ s', Clear ctx s' ∨ HasResponse H expectedSha256 h →
      post (h ++ [.external (⟨.streamClose, ()⟩ : NetExchange)]) () s' s') :
    streamClose.Meets (downloads net role expectedSha256 ctx) post h found s := by
  refine ⟨hs.leaves, ⟨Or.inl hs.clear, (), ?_, fun _ _ _ => trivial⟩, fun s' _ hadmits => ?_⟩
  · intro address port heq
    cases heq
  · exact hpost s' (hadmits.1.imp_right And.right)

theorem meets_closeWith {α : Type} {result : α}
    {post : List (Event nodeSignature) → α → Node → Node → Prop} (hJ : Lasting J)
    (hs : Settled H role expectedSha256 ctx J h found s)
    (hmissing : ¬HasResponse H expectedSha256 h)
    (hpost : ∀ h s', Settled H role expectedSha256 ctx J h s' s' → post h result s' s') :
    (closeWith result).Meets (downloads net role expectedSha256 ctx) post h found s := by
  refine Meets.bind (meets_streamClose hs fun s' hs' => ?_)
  exact hpost _ s' (settled_start (hs'.resolve_right hmissing) (hJ h _ rfl hs.known))

theorem Talk.hasResponse_iff {received : Bytes}
    (ht : Talk net expectedSha256 h address port received) :
    HasResponse H expectedSha256 h ↔ Verified H expectedSha256 received := by
  constructor
  · rintro ⟨c, hc, hverified⟩
    rw [ht.now] at hc
    cases hc
    exact hverified
  · exact fun hverified => ⟨_, ht.now, hverified⟩

theorem Talk.quiet {received : Bytes} {x : NetExchange}
    (ht : Talk net expectedSha256 h address port received) (hconnect : isConnect x = false)
    (hincoming : incoming x = []) :
    Talk net expectedSha256 (h ++ [.external x]) address port received :=
  ⟨by rw [conversation_quiet hconnect hincoming, ht.now], ht.begins⟩

theorem Talk.answers {received : Bytes} {x : NetExchange}
    (ht : Talk net expectedSha256 h address port received) (hconnect : isConnect x = false)
    (hnext : net.delivers expectedSha256 address port →
      NextFromSupplier H expectedSha256 received x) : net.Answers expectedSha256 h x where
  connects a p heq := by
    rw [heq] at hconnect
    cases hconnect
  goes_on c hc hdelivers := by
    rw [ht.now] at hc
    cases hc
    exact hnext hdelivers

theorem Talk.next {received : Bytes} {x : NetExchange}
    (ht : Talk net expectedSha256 h address port received)
    (hx : net.Answers expectedSha256 h x) (hdelivers : net.delivers expectedSha256 address port) :
    NextFromSupplier H expectedSha256 received x :=
  hx.goes_on _ ht.now hdelivers

/-! ## Reading -/

theorem Talk.exists_read {received : Bytes} {n : Nat} (hn : 0 < n)
    (ht : Talk net expectedSha256 h address port received) :
    ∃ r, net.Answers expectedSha256 h ⟨.streamRead n, r⟩ := by
  by_cases hdelivers : net.delivers expectedSha256 address port
  · obtain ⟨stream, hverified, rest, rfl⟩ := ht.begins hdelivers
    refine ⟨⟨rest.take n, by simp⟩, ht.answers rfl fun _ => ⟨⟨_, hverified, ?_⟩, fun hnil => ?_⟩⟩
    · exact (List.prefix_append_right_inj _).mpr (List.take_prefix n rest)
    · rcases List.take_eq_nil_iff.mp hnil with hzero | hempty
      · omega
      · rwa [hempty, List.append_nil] at hverified
  · exact ⟨⟨[], by simp⟩, ht.answers rfl fun h => absurd h hdelivers⟩

theorem Talk.read {received : Bytes} {n : Nat} {r : { bytes : Bytes // bytes.length ≤ n }}
    (ht : Talk net expectedSha256 h address port received)
    (hr : net.Answers expectedSha256 h ⟨.streamRead n, r⟩) :
    Talk net expectedSha256 (h ++ [.external (⟨.streamRead n, r⟩ : NetExchange)]) address port
      (received ++ r.val) where
  now := by
    rw [conversation_streamRead, ht.now]
    rfl
  begins hdelivers := (ht.next hr hdelivers).1

structure HasRead (net : Suppliers H) (role : Role) (expectedSha256 : Bytes) (ctx : Option Nat)
    (J : List (Event nodeSignature) → Prop) (address : Bytes) (port : UInt16) (before : Bytes)
    (n : Nat) (h : List (Event nodeSignature)) (bytes : Bytes) (found s : Node) : Prop where
  settled : Settled H role expectedSha256 ctx J h found s
  talk : Talk net expectedSha256 h address port (before ++ bytes)
  length_le : bytes.length ≤ n
  complete : net.delivers expectedSha256 address port → bytes.length = n

theorem meets_readLoop {before got : Bytes} {n rounds : Nat} (hJ : Lasting J)
    (hs : Settled H role expectedSha256 ctx J h found s)
    (ht : Talk net expectedSha256 h address port (before ++ got))
    (hrounds : n ≤ got.length + rounds) (hgot : got.length ≤ n)
    (hmore : ∀ more : Bytes, more.length < n → ¬Verified H expectedSha256 (before ++ more)) :
    (readLoop n rounds got).Meets (downloads net role expectedSha256 ctx)
      (HasRead net role expectedSha256 ctx J address port before n) h found s := by
  induction rounds generalizing got h found s with
  | zero => exact ⟨hs, ht, hgot, fun _ => by omega⟩
  | succ rounds ih =>
      unfold readLoop
      split
      · rename_i hlt
        refine Meets.bind (meets_exchange (fun _ => hJ _ _ rfl) hs (by simp)
          (ht.exists_read (by omega)) ?_)
        rintro ⟨r, hr⟩ s' hanswer hs'
        have ht' := ht.read hanswer
        simp only at ht' ⊢
        split
        · rename_i hempty
          have hnil : r = [] := by simpa using hempty
          subst hnil
          rw [List.append_nil] at ht'
          refine ⟨hs', ht', hgot, fun hdelivers => ?_⟩
          exact absurd ((ht.next hanswer hdelivers).2 rfl) (hmore got hlt)
        · rename_i hne
          have hpos : 0 < r.length := List.length_pos_of_ne_nil (by simpa using hne)
          rw [List.append_assoc] at ht'
          refine ih hs' ht' ?_ ?_
          · rw [List.length_append]
            omega
          · rw [List.length_append]
            omega
      · exact ⟨hs, ht, hgot, fun _ => by omega⟩

theorem meets_readExact {before : Bytes} {n : Nat} (hJ : Lasting J)
    (hs : Settled H role expectedSha256 ctx J h found s)
    (ht : Talk net expectedSha256 h address port before)
    (hmore : ∀ more : Bytes, more.length < n → ¬Verified H expectedSha256 (before ++ more)) :
    (readExact n).Meets (downloads net role expectedSha256 ctx)
      (HasRead net role expectedSha256 ctx J address port before n) h found s :=
  meets_readLoop hJ hs (by rwa [List.append_nil]) (by simp) (by simp) hmore

/-! ## Writing and waiting -/

structure HasWritten (net : Suppliers H) (role : Role) (expectedSha256 : Bytes) (ctx : Option Nat)
    (J : List (Event nodeSignature) → Prop) (address : Bytes) (port : UInt16) (received : Bytes)
    (h : List (Event nodeSignature)) (ok : Bool) (found s : Node) : Prop where
  settled : Settled H role expectedSha256 ctx J h found s
  talk : Talk net expectedSha256 h address port received
  complete : net.delivers expectedSha256 address port → ok = true

theorem meets_writeLoop {received rest : Bytes} {rounds : Nat} (hJ : Lasting J)
    (hs : Settled H role expectedSha256 ctx J h found s)
    (ht : Talk net expectedSha256 h address port received) (hrounds : rest.length ≤ rounds) :
    (writeLoop rounds rest).Meets (downloads net role expectedSha256 ctx)
      (HasWritten net role expectedSha256 ctx J address port received) h found s := by
  induction rounds generalizing rest h found s with
  | zero =>
      have hnil : rest = [] := List.eq_nil_of_length_eq_zero (by omega)
      exact ⟨hs, ht, fun _ => by simp [hnil]⟩
  | succ rounds ih =>
      unfold writeLoop
      split
      · exact ⟨hs, ht, fun _ => rfl⟩
      · rename_i hne
        have hanswer : net.Answers expectedSha256 h ⟨.streamWrite rest, Fin.last rest.length⟩ := by
          refine ht.answers rfl fun _ => ?_
          change rest.length ≠ 0
          simpa using hne
        refine Meets.bind (meets_exchange (fun _ => hJ _ _ rfl) hs (by simp) ⟨_, hanswer⟩ ?_)
        intro count s' hcount hs'
        have ht' := @Talk.quiet _ _ _ _ _ _ _ ⟨.streamWrite rest, count⟩ ht rfl rfl
        split
        · rename_i hzero
          exact ⟨hs', ht', fun hdelivers => absurd hzero (ht.next hcount hdelivers)⟩
        · refine ih hs' ht' ?_
          rw [List.length_drop]
          omega

theorem meets_writeMessage {received : Bytes} (header : ChunkMessageHeader) (chunkId : Bytes)
    (hJ : Lasting J) (hs : Settled H role expectedSha256 ctx J h found s)
    (ht : Talk net expectedSha256 h address port received) :
    (writeMessage header chunkId).Meets (downloads net role expectedSha256 ctx)
      (HasWritten net role expectedSha256 ctx J address port received) h found s := by
  refine Meets.seq (meets_writeLoop hJ hs ht (Nat.le_refl _)) ?_
  rintro h ok found s ⟨hs, ht, hok⟩
  cases ok with
  | true => exact meets_writeLoop hJ hs ht (Nat.le_refl _)
  | false => exact ⟨hs, ht, hok⟩

theorem meets_acquire {received : Bytes} (direction : Direction) (n : Nat) (hJ : Lasting J)
    (hs : Settled H role expectedSha256 ctx J h found s)
    (ht : Talk net expectedSha256 h address port received) :
    (acquire direction n).Meets (downloads net role expectedSha256 ctx)
      (fun h _ found s => Settled H role expectedSha256 ctx J h found s ∧
        Talk net expectedSha256 h address port received) h found s := by
  have hsleep : ∀ (ms : Nat) (s : Node), Settled H role expectedSha256 ctx J h found s →
      (sleepFor ms).Meets (downloads net role expectedSha256 ctx)
        (fun h _ found s => Settled H role expectedSha256 ctx J h found s ∧
          Talk net expectedSha256 h address port received) h found s := by
    intro ms s hs
    refine meets_exchange (fun _ => hJ _ _ rfl) hs (by simp)
      ⟨(), ht.answers rfl fun _ => trivial⟩ ?_
    exact fun answer s' _ hs' => ⟨hs', ht.quiet rfl rfl⟩
  refine Meets.bind (meets_onTransfer ?_)
  cases direction with
  | upload =>
      simp only
      split
      · exact ⟨hs.still (still_of_contexts rfl rfl), ht⟩
      · exact hsleep _ _ (hs.still (still_of_contexts rfl rfl))
  | download =>
      simp only
      split
      · exact ⟨hs.still (still_of_contexts rfl rfl), ht⟩
      · exact hsleep _ _ (hs.still (still_of_contexts rfl rfl))

/-! ## One peer -/

def HasReceived (net : Suppliers H) (role : Role) (expectedSha256 : Bytes) (ctx : Option Nat)
    (J : List (Event nodeSignature) → Prop) (address : Bytes) (port : UInt16) (before : Bytes)
    (c total : Nat) (h : List (Event nodeSignature)) (outcome : Except PeerDownloadResult Bytes)
    (found s : Node) : Prop :=
  Settled H role expectedSha256 ctx J h found s ∧
    match outcome with
    | .error result => result.success = false ∧
        (c ∈ ctx → ¬net.delivers expectedSha256 address port)
    | .ok data => data.length = total ∧ Talk net expectedSha256 h address port (before ++ data)

theorem meets_receiveData {before data : Bytes} {c total rounds : Nat} (hJ : Lasting J)
    (hs : Settled H role expectedSha256 ctx J h found s)
    (ht : Talk net expectedSha256 h address port (before ++ data))
    (hrounds : total ≤ data.length + rounds) (hdata : data.length ≤ total)
    (htotal : ∀ bytes, Verified H expectedSha256 (before ++ bytes) → bytes.length = total) :
    (receiveData c total rounds data).Meets (downloads net role expectedSha256 ctx)
      (HasReceived net role expectedSha256 ctx J address port before c total) h found s := by
  induction rounds generalizing data h found s with
  | zero => exact ⟨hs, by omega, ht⟩
  | succ rounds ih =>
      unfold receiveData
      split
      · rename_i hlt
        have hmissing : ∀ {h : List (Event nodeSignature)} {data : Bytes}, data.length < total →
            Talk net expectedSha256 h address port (before ++ data) →
              ¬HasResponse H expectedSha256 h := by
          intro h data hlt ht hresponse
          have hall := htotal data (ht.hasResponse_iff.mp hresponse)
          omega
        refine Meets.bind (meets_onTransfer ?_)
        split
        · rename_i hstopped
          refine meets_closeWith hJ hs (hmissing hlt ht) fun h s' hs' => ⟨hs', rfl, fun hc => ?_⟩
          -- The flag that is known to be clear is not the one of this context.
          rw [(hs.clear c hc).2] at hstopped
          cases hstopped
        · refine Meets.seq (meets_acquire _ _ hJ hs ht) ?_
          rintro h - found s ⟨hs, ht⟩
          refine Meets.seq (meets_readExact hJ hs ht fun more hmore hverified => ?_) ?_
          · rw [List.append_assoc] at hverified
            have hall := htotal _ hverified
            rw [List.length_append] at hall
            omega
          rintro h got found s ⟨hs, ht, hle, hfull⟩
          rw [List.append_assoc] at ht
          have hsum : (data ++ got).length = data.length + got.length := List.length_append
          split
          · rename_i hempty
            have hnil : got = [] := by simpa using hempty
            subst hnil
            refine meets_closeWith hJ hs (hmissing (by simpa using hlt) ht) fun h s hs =>
              ⟨hs, rfl, fun _ hdelivers => ?_⟩
            have hnone := hfull hdelivers
            rw [sliceSize, List.length_nil] at hnone
            omega
          · rename_i hne
            have hpos : 0 < got.length := List.length_pos_of_ne_nil (by simpa using hne)
            exact ih hs ht (by omega) (by omega)
      · exact ⟨hs, by omega, ht⟩

/-- What a download from one peer comes to: with success it has just closed a
verified response, without success it has found the flag clear; and it succeeds
if its peer delivers and the flag is the one of its context. -/
structure HasDownloaded (net : Suppliers H) (role : Role) (expectedSha256 : Bytes)
    (ctx : Option Nat) (J : List (Event nodeSignature) → Prop) (address : Bytes) (port : UInt16)
    (c : Nat) (h : List (Event nodeSignature)) (result : PeerDownloadResult) (found s : Node) :
    Prop where
  leaves : Raises (role.Wins H expectedSha256 h) found s
  known : J h
  success : result.success = true → ClosesResponse H expectedSha256 h
  failure : result.success = false → Clear ctx s
  delivers : c ∈ ctx → net.delivers expectedSha256 address port → result.success = true

theorem Settled.failed {c : Nat} {result : PeerDownloadResult}
    (hs : Settled H role expectedSha256 ctx J h found s) (hresult : result.success = false)
    (hdelivers : c ∈ ctx → ¬net.delivers expectedSha256 address port) :
    HasDownloaded net role expectedSha256 ctx J address port c h result found s where
  leaves := hs.leaves
  known := hs.known
  success hsuccess := by
    rw [hresult] at hsuccess
    cases hsuccess
  failure _ := hs.clear
  delivers hc hd := absurd hd (hdelivers hc)

theorem Talk.verified {header : ChunkMessageHeader} {id data : Bytes}
    (ht : Talk net expectedSha256 h address port (headerBytes header ++ (id ++ data)))
    (hid : id.length = echoedLength header) (hlength : data.length = header.dataLength.toNat)
    (hdelivers : net.delivers expectedSha256 address port) :
    Verified H expectedSha256 (headerBytes header ++ (id ++ data)) := by
  obtain ⟨stream, hverified, rest, rfl⟩ := ht.begins hdelivers
  have hempty : rest = [] := by
    have hall := hverified
    rw [List.append_assoc] at hall
    have hsum := hall.length_eq
    rw [List.length_append, List.length_append, hid, hlength] at hsum
    exact List.eq_nil_of_length_eq_zero (by omega)
  rwa [hempty, List.append_nil] at hverified

theorem meets_checkResponse {header : ChunkMessageHeader} {id data : Bytes} {c : Nat}
    (hJ : Lasting J) (hmagic : header.magic = chunkTransferMagic)
    (htype : header.messageType = ChunkMessageType.response.toUInt32)
    (hid : id.length = echoedLength header) (hlength : data.length = header.dataLength.toNat)
    (hs : Settled H role expectedSha256 ctx J h found s)
    (ht : Talk net expectedSha256 h address port (headerBytes header ++ (id ++ data))) :
    (do
      streamClose
      pure (verifyData H header expectedSha256 data) : Proc PeerDownloadResult).Meets
      (downloads net role expectedSha256 ctx)
      (HasDownloaded net role expectedSha256 ctx J address port c) h found s := by
  have hchecks : (verifyData H header expectedSha256 data).success = true ↔
      HasResponse H expectedSha256 h := by
    rw [ht.hasResponse_iff]
    exact verifyData_success_iff hmagic htype hid hlength
  refine Meets.bind (meets_streamClose hs fun s' hs' => ?_)
  refine ⟨Raises.refl _ s', hJ h _ rfl hs.known, fun hsuccess => ⟨h, rfl, hchecks.mp hsuccess⟩,
    fun hfailure => hs'.resolve_right fun hresponse => ?_, fun _ hdelivers => ?_⟩
  · rw [hchecks.mpr hresponse] at hfailure
    cases hfailure
  · exact hchecks.mpr (ht.hasResponse_iff.mpr (ht.verified hid hlength hdelivers))

theorem meets_receiveResponse {header : ChunkMessageHeader} {c : Nat} (hJ : Lasting J)
    (hmagic : header.magic = chunkTransferMagic)
    (htype : header.messageType = ChunkMessageType.response.toUInt32)
    (hs : Settled H role expectedSha256 ctx J h found s)
    (ht : Talk net expectedSha256 h address port (headerBytes header)) :
    (receiveResponse H c expectedSha256 header).Meets (downloads net role expectedSha256 ctx)
      (HasDownloaded net role expectedSha256 ctx J address port c) h found s := by
  have hshort : ∀ rest : Bytes, rest.length < echoedLength header →
      ¬Verified H expectedSha256 (headerBytes header ++ rest) := by
    intro rest hrest hverified
    have hlength := hverified.length_eq
    omega
  unfold receiveResponse
  refine Meets.seq (meets_readExact hJ hs ht hshort) ?_
  rintro h id found s ⟨hs, ht, hle, hfull⟩
  split
  · rename_i hid
    refine meets_closeWith hJ hs ?_ fun h s hs => hs.failed rfl fun _ hd => hid (hfull hd)
    rw [ht.hasResponse_iff]
    exact hshort id (by omega)
  · rename_i hid
    have hid : id.length = echoedLength header := not_not.mp hid
    have htotal : ∀ bytes, Verified H expectedSha256 (headerBytes header ++ id ++ bytes) →
        bytes.length = header.dataLength.toNat := by
      intro bytes hverified
      rw [List.append_assoc] at hverified
      have hlength := hverified.length_eq
      rw [List.length_append] at hlength
      omega
    refine Meets.bind (meets_exchange (fun _ => hJ _ _ rfl) hs (by simp)
      ⟨true, ht.answers rfl fun _ => rfl⟩ ?_)
    intro ok s hok hs
    have htalk := @Talk.quiet _ _ _ _ _ _ _ ⟨.reserve _, ok⟩ ht rfl rfl
    split
    · rename_i hfails
      refine hs.failed rfl fun _ hd => ?_
      rw [show ok = true from ht.next hok hd] at hfails
      cases hfails
    · rw [← List.append_nil (headerBytes header ++ id)] at htalk
      refine Meets.seq (meets_receiveData hJ hs htalk (by simp) (by simp) htotal) ?_
      rintro h outcome found s ⟨hs, houtcome⟩
      cases outcome with
      | error result => exact hs.failed houtcome.1 houtcome.2
      | ok data =>
          obtain ⟨hlength, ht⟩ := houtcome
          rw [List.append_assoc] at ht
          exact meets_checkResponse hJ hmagic htype hid hlength hs ht

def HasReadHeader (net : Suppliers H) (role : Role) (expectedSha256 : Bytes) (ctx : Option Nat)
    (J : List (Event nodeSignature) → Prop) (address : Bytes) (port : UInt16)
    (h : List (Event nodeSignature)) (header : Option ChunkMessageHeader) (found s : Node) : Prop :=
  Settled H role expectedSha256 ctx J h found s ∧
    match header with
    | none => ¬HasResponse H expectedSha256 h ∧ ¬net.delivers expectedSha256 address port
    | some header => Talk net expectedSha256 h address port (headerBytes header)

theorem meets_readHeader (hJ : Lasting J) (hs : Settled H role expectedSha256 ctx J h found s)
    (ht : Talk net expectedSha256 h address port []) :
    readHeader.Meets (downloads net role expectedSha256 ctx)
      (HasReadHeader net role expectedSha256 ctx J address port) h found s := by
  have hshort : ∀ bytes : Bytes, bytes.length < ChunkMessageHeader.size →
      ¬Verified H expectedSha256 ([] ++ bytes) :=
    fun bytes hlt hverified => absurd hverified.size_le (Nat.not_le.mpr hlt)
  refine Meets.seq (meets_readExact hJ hs ht hshort) ?_
  rintro h bytes found s ⟨hs, ht, hle, hfull⟩
  split
  · rename_i hlength
    have hbytes := headerBytes_headerFromWire ⟨bytes, hlength⟩
    simp only at hbytes
    refine ⟨hs, ?_⟩
    change Talk net expectedSha256 h address port (headerBytes (headerFromWire ⟨bytes, hlength⟩))
    rw [hbytes]
    exact ht
  · rename_i hlength
    refine ⟨hs, ?_, fun hd => hlength (hfull hd)⟩
    rw [ht.hasResponse_iff]
    exact hshort bytes (by omega)

theorem talk_of_connect (h : List (Event nodeSignature)) (address : Bytes) (port : UInt16) :
    Talk net expectedSha256
      (h ++ [.external (⟨.tcpConnect address port, true⟩ : NetExchange)]) address port [] where
  now := conversation_tcpConnect h address port
  begins hd := by
    obtain ⟨stream, hverified⟩ := net.response _ _ _ hd
    exact ⟨stream, hverified, List.nil_prefix⟩

theorem meets_reply {header : ChunkMessageHeader} {c : Nat} (hJ : Lasting J)
    (hs : Settled H role expectedSha256 ctx J h found s)
    (ht : Talk net expectedSha256 h address port (headerBytes header)) :
    (if header.magic ≠ chunkTransferMagic ∨
        header.messageType ≠ ChunkMessageType.response.toUInt32 then closeWith {}
      else receiveResponse H c expectedSha256 header).Meets (downloads net role expectedSha256 ctx)
      (HasDownloaded net role expectedSha256 ctx J address port c) h found s := by
  split
  · rename_i hkind
    have hother : ∀ rest, ¬Verified H expectedSha256 (headerBytes header ++ rest) := by
      intro rest hverified
      obtain ⟨hmagic, htype⟩ := hverified.kind
      exact hkind.elim (· hmagic) (· htype)
    refine meets_closeWith hJ hs ?_ fun h s hs => hs.failed rfl fun _ hd => ?_
    · rw [ht.hasResponse_iff, ← List.append_nil (headerBytes header)]
      exact hother []
    · obtain ⟨stream, hverified, rest, rfl⟩ := ht.begins hd
      exact hother rest hverified
  · rename_i hkind
    simp only [not_or, not_not] at hkind
    exact meets_receiveResponse hJ hkind.1 hkind.2 hs ht

theorem Talk.nothing (ht : Talk net expectedSha256 h address port []) :
    ¬HasResponse H expectedSha256 h := by
  intro hresponse
  have hsize := (ht.hasResponse_iff.mp hresponse).size_le
  rw [ChunkMessageHeader.size, List.length_nil] at hsize
  omega

theorem meets_downloadFromPeer (c : Nat) (peer : PeerNode) (hJ' : Lasting J')
    (hs : Settled H role expectedSha256 ctx J h found s)
    (hJ : ∀ connected : Bool, J h → J' (h ++ [.external
      (⟨.tcpConnect peer.address peer.port, connected⟩ : NetExchange)])) :
    (downloadFromPeer H c peer expectedSha256).Meets (downloads net role expectedSha256 ctx)
      (HasDownloaded net role expectedSha256 ctx J' peer.address peer.port c) h found s := by
  have hconnects : net.Answers expectedSha256 h ⟨.tcpConnect peer.address peer.port, true⟩ :=
    ⟨fun a p heq => (by cases heq), fun _ _ _ => trivial⟩
  refine Meets.bind (meets_exchange hJ hs (by simp) ⟨true, hconnects⟩ ?_)
  rintro (ok : Bool) s hok hs
  cases ok with
  | false => exact hs.failed rfl fun _ => hok.connects _ _ rfl
  | true =>
      have ht : Talk net expectedSha256 _ peer.address peer.port [] :=
        talk_of_connect h peer.address peer.port
      refine Meets.bind (meets_onTransfer ?_)
      refine Meets.seq (meets_writeMessage _ _ hJ' hs ht) ?_
      rintro h ok found s ⟨hs, ht, hok⟩
      cases ok with
      | false =>
          exact meets_closeWith hJ' hs ht.nothing fun h s hs => hs.failed rfl fun _ hd =>
            nomatch hok hd
      | true =>
          refine Meets.seq (meets_readHeader hJ' hs ht) ?_
          rintro h header found s ⟨hs, hheader⟩
          cases header with
          | none =>
              exact meets_closeWith hJ' hs hheader.1 fun h s hs => hs.failed rfl fun _ => hheader.2
          | some header => exact meets_reply hJ' hs hheader

end Routines

end ElioP2P.P2P
