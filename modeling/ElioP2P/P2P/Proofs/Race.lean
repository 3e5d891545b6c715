import ElioP2P.P2P.Proofs.ChunkFrame
import ElioP2P.P2P.Proofs.Suppliers

/-!
# A call of `download_chunk`

The race among the selected peers and the fallback behind it, as one coroutine.
A call that finds the stop flag of its context clear wherever it goes on returns
data if one of its candidates delivers; whatever it finds, it comes to its end,
and without data only if every download that it has spawned has failed.
-/

namespace ElioP2P.P2P

open ElioP2P.Library ElioP2P.Library.Coroutine ElioP2P.Proxy

/-! ## What a call does to stop flags -/

theorem isStopped_updateContext (t : TransferManager) (c ctx : Nat)
    (f : ChunkTransferContext → ChunkTransferContext) :
    (t.updateContext c f).isStopped ctx =
      if c = ctx then t.contexts[ctx]?.any fun context => (f context).stopFlag
      else t.isStopped ctx := by
  unfold TransferManager.isStopped TransferManager.updateContext
  rw [List.getElem?_modify]
  split
  · rename_i hctx
    subst hctx
    cases t.contexts[c]? with
    | none => rfl
    | some context => rfl
  · simp

theorem isStopped_updateContext_kept (t : TransferManager) (c ctx : Nat)
    {f : ChunkTransferContext → ChunkTransferContext} (hf : ∀ x, (f x).stopFlag = x.stopFlag) :
    (t.updateContext c f).isStopped ctx = t.isStopped ctx := by
  rw [isStopped_updateContext]
  split
  · simp only [hf]
    rfl
  · rfl

theorem isStopped_getOrCreateContext (t : TransferManager) (chunkId : Bytes) (resume : Bool)
    (ctx : Nat) : (t.getOrCreateContext chunkId resume).2.isStopped ctx = t.isStopped ctx := by
  unfold TransferManager.getOrCreateContext
  split
  · rfl
  · simp only [TransferManager.isStopped]
    rcases Nat.lt_trichotomy ctx t.contexts.length with hlt | rfl | hgt
    · rw [List.getElem?_append_left hlt]
    · simp
    · rw [List.getElem?_append_right hgt.le, List.getElem?_eq_none hgt.le]
      obtain ⟨k, hk⟩ := Nat.exists_eq_succ_of_ne_zero (Nat.sub_ne_zero_of_lt hgt)
      rw [hk]
      rfl

theorem isStopped_openContext (request : TransferRequest) (t : TransferManager) (ctx : Nat) :
    (openContext request t).2.isStopped ctx = t.isStopped ctx := by
  have hset : ∀ (t : TransferManager) c n, (t.updateContext c fun context =>
      { context with isResume := true, downloadedSize := n }).isStopped ctx = t.isStopped ctx :=
    fun _ _ _ => isStopped_updateContext_kept _ _ _ fun _ => rfl
  refine (isStopped_updateContext_kept _ _ ctx ?_).trans ?_
  · intro _
    rfl
  rw [apply_ite fun t : TransferManager => t.isStopped ctx, hset, ite_self]
  exact isStopped_getOrCreateContext _ _ _ ctx

theorem still_beginDownload (request : TransferRequest) (s : Node) :
    Still s (beginDownload request s).2 := by
  obtain ⟨stats, shuffles, reservations, discovery, hbegun⟩ := beginDownload_frame request s
  rw [hbegun]
  exact ⟨(openContext_settings request s.transfer).1, isStopped_openContext request s.transfer⟩

theorem still_endDownload (chunkId : Bytes) (ctx : Nat) (result : Option Bytes) (s : Node) :
    Still s { s with transfer := (endDownload chunkId ctx result s.transfer).2 } := by
  have hsaved : ∀ n,
      (removeTemp ctx (s.transfer.saveProgress chunkId n)).2.running = s.transfer.running ∧
      (removeTemp ctx (s.transfer.saveProgress chunkId n)).2.contexts = s.transfer.contexts := by
    intro n
    rw [(removeTemp_settings ctx _).2.2, (removeTemp_settings ctx _).1]
    exact ⟨(saveProgress_settings _ _ _).2.2.2, (saveProgress_settings _ _ _).1⟩
  cases result with
  | none => exact still_of_contexts rfl rfl
  | some data =>
      simp only [endDownload, TransferManager.removeTransfer]
      split
      · exact still_of_contexts (hsaved _).1 (hsaved _).2
      · exact still_of_contexts (hsaved _).1 (hsaved _).2

theorem raises_adopt {wins : Prop} {found s : Node} (h : Raises wins found s) (hwins : wins)
    (c : Nat) (result : PeerDownloadResult) :
    Raises wins found { s with transfer := s.transfer.updateContext c fun context =>
      { context with stopFlag := true, downloadedSize := result.bytesDownloaded } } where
  running := h.running
  kept ctx hctx := by
    have hstopped := h.kept ctx hctx
    simp only
    rw [isStopped_updateContext]
    split
    · unfold TransferManager.isStopped at hstopped
      cases hcontext : s.transfer.contexts[ctx]? with
      | none =>
          rw [hcontext] at hstopped
          cases hstopped
      | some context => rfl
    · exact hstopped
  raised _ _ := Or.inr hwins

section Call

variable {H : Sha256} {net : Suppliers H} {expectedSha256 : Bytes} {ctx : Option Nat}
  {J : List (Event nodeSignature) → Prop} {h : List (Event nodeSignature)} {found s : Node}

/-! ## Downloads that have failed -/

def FailedIn (h : List (Event nodeSignature)) (id : Nat) (job : Job) : Prop :=
  ∃ finished : Finished nodeSignature, .joined id job finished ∈ h ∧
    ∃ result, finished.result = JobResult.peerDownload result ∧ result.success = false

def AllFailed (h : List (Event nodeSignature)) : Prop :=
  ∀ id job, .spawned id job ∈ h → FailedIn h id job

theorem FailedIn.append {id : Nat} {job : Job} (hf : FailedIn h id job)
    (new : List (Event nodeSignature)) : FailedIn (h ++ new) id job := by
  obtain ⟨finished, hmem, hresult⟩ := hf
  exact ⟨finished, List.mem_append_left new hmem, hresult⟩

theorem AllFailed.external (hall : AllFailed h) (x : NetExchange) :
    AllFailed (h ++ [.external x]) := by
  intro id job hmem
  simp only [List.mem_append, List.mem_singleton, reduceCtorEq, or_false] at hmem
  exact (hall id job hmem).append _

/-- All that was spawned has failed, and these endpoints have been asked. -/
def Contacted (asked : List (Bytes × UInt16)) (h : List (Event nodeSignature)) : Prop :=
  AllFailed h ∧ connectsOf h = asked

theorem lasting_contacted (asked : List (Bytes × UInt16)) : Lasting (Contacted asked) := by
  rintro h x hquiet ⟨hfailed, hasked⟩
  exact ⟨hfailed.external x, by rw [connectsOf_append, hasked, connectsOf_quiet hquiet,
    List.append_nil]⟩

/-! ## The fallback -/

/-- What trying the peers in turn has come to: those before the last one tried
do not deliver, and without data all have been tried and none delivers. -/
structure Tries (net : Suppliers H) (expectedSha256 : Bytes) (peers tried : List PeerNode)
    (result : Option Bytes) : Prop where
  order : tried <+: peers
  failed : ∀ peer ∈ tried.dropLast, ¬net.delivers expectedSha256 peer.address peer.port
  exhausted : result = none →
    tried = peers ∧ ∀ peer ∈ peers, ¬net.delivers expectedSha256 peer.address peer.port
  nonempty : result.isSome = true → tried ≠ []

theorem Tries.cons {peer : PeerNode} {peers tried : List PeerNode} {result : Option Bytes}
    (h : Tries net expectedSha256 peers tried result)
    (hpeer : ¬net.delivers expectedSha256 peer.address peer.port) :
    Tries net expectedSha256 (peer :: peers) (peer :: tried) result where
  order := (List.prefix_cons_inj peer).mpr h.order
  failed other hother := by
    cases htried : tried with
    | nil =>
        rw [htried] at hother
        cases hother
    | cons next rest =>
        rw [htried, List.dropLast_cons_cons, ← htried] at hother
        rcases List.mem_cons.mp hother with rfl | hlater
        · exact hpeer
        · exact h.failed other hlater
  exhausted hnone := by
    obtain ⟨rfl, hnobody⟩ := h.exhausted hnone
    refine ⟨rfl, fun other hother => ?_⟩
    rcases List.mem_cons.mp hother with rfl | hlater
    · exact hpeer
    · exact hnobody other hlater
  nonempty _ := List.cons_ne_nil _ _

/-- Tried one by one, a peer that delivers is reached and brings its data. -/
theorem meets_tryFallback (c : Nat) (peers : List PeerNode) {asked : List (Bytes × UInt16)}
    (hs : Settled H .call expectedSha256 ctx (Contacted asked) h found s) :
    (tryFallback H c expectedSha256 peers).Meets (downloads net .call expectedSha256 ctx)
      (fun h result found s => Raises (Role.call.Wins H expectedSha256 h) found s ∧ AllFailed h ∧
        (c ∈ ctx → ∃ tried, connectsOf h = asked ++ tried.map endpoint ∧
          Tries net expectedSha256 peers tried result)) h found s := by
  induction peers generalizing asked h found s with
  | nil =>
      refine ⟨hs.leaves, hs.known.1, fun _ => ⟨[], by simpa using hs.known.2, ?_⟩⟩
      exact ⟨List.prefix_refl _, nofun, fun _ => ⟨rfl, nofun⟩, fun hsome => nomatch hsome⟩
  | cons peer peers ih =>
      refine Meets.bind (meets_onTransfer ?_)
      split
      · rename_i hstopped
        refine ⟨hs.leaves, hs.known.1, fun hc => ?_⟩
        obtain ⟨hrunning, hclear⟩ := hs.clear c hc
        rw [hrunning, hclear] at hstopped
        cases hstopped
      · refine Meets.seq (meets_downloadFromPeer c peer
          (lasting_contacted (asked ++ [endpoint peer])) hs fun connected hknown => ?_) ?_
        · exact ⟨hknown.1.external _, by rw [connectsOf_append, hknown.2, connectsOf_tcpConnect]⟩
        rintro h result found s ⟨hleaves, hknown, hsuccess, hfailure, hdelivers⟩
        cases hresult : result.success with
        | true =>
            simp only [if_true]
            refine Meets.bind (meets_onTransfer ⟨?_, hknown.1, fun _ => ⟨[peer], hknown.2, ?_⟩⟩)
            · exact raises_adopt hleaves (Or.inl (hsuccess hresult)) c result
            · exact ⟨⟨peers, rfl⟩, nofun, nofun, fun _ => List.cons_ne_nil _ _⟩
        | false =>
            simp only [Bool.false_eq_true, if_false]
            refine (ih ⟨hleaves, hfailure hresult, hknown⟩).mono ?_
            rintro h value found s ⟨hleaves, hfailed, htries⟩
            refine ⟨hleaves, hfailed, fun hc => ?_⟩
            obtain ⟨tried, hconnects, htries⟩ := htries hc
            refine ⟨peer :: tried, by simpa using hconnects, htries.cons fun hd => ?_⟩
            rw [hdelivers hc hd] at hresult
            cases hresult

/-! ## The race -/

/-- The downloads behind the handles have been spawned, and all others have
failed. -/
structure Racing (c : Nat) (expectedSha256 : Bytes) (handles : List (Nat × PeerNode))
    (h : List (Event nodeSignature)) : Prop where
  spawned : ∀ handle ∈ handles,
    .spawned handle.1 (Job.downloadFromPeer c handle.2 expectedSha256) ∈ h
  others : ∀ id job, .spawned id job ∈ h → FailedIn h id job ∨
    ∃ handle ∈ handles, id = handle.1 ∧ job = .downloadFromPeer c handle.2 expectedSha256
  quiet : connectsOf h = []

theorem Racing.contacted {c : Nat} (hr : Racing c expectedSha256 [] h) : Contacted [] h := by
  refine ⟨fun id job hmem => ?_, hr.quiet⟩
  rcases hr.others id job hmem with hfailed | ⟨handle, hnil, -⟩
  · exact hfailed
  · cases hnil

theorem Racing.spawn {c : Nat} {handles : List (Nat × PeerNode)}
    (hr : Racing c expectedSha256 handles h) (id : Nat) (peer : PeerNode) :
    Racing c expectedSha256 (handles ++ [(id, peer)])
      (h ++ [.spawned id (Job.downloadFromPeer c peer expectedSha256)]) where
  spawned handle hmem := by
    rcases List.mem_append.mp hmem with hold | hnew
    · exact List.mem_append_left _ (hr.spawned handle hold)
    · rw [List.mem_singleton.mp hnew]
      simp
  others id' job hmem := by
    rcases List.mem_append.mp hmem with hold | hnew
    · rcases hr.others id' job hold with hfailed | ⟨handle, hhandle, heq⟩
      · exact Or.inl (hfailed.append _)
      · exact Or.inr ⟨handle, List.mem_append_left _ hhandle, heq⟩
    · simp only [List.mem_singleton, Event.spawned.injEq] at hnew
      exact Or.inr ⟨(id, peer), by simp, hnew⟩
  quiet := by rw [connectsOf_append, hr.quiet, connectsOf_spawned, List.append_nil]

theorem Racing.join {c : Nat} {handle : Nat × PeerNode} {handles : List (Nat × PeerNode)}
    {finished : Finished nodeSignature} {result : PeerDownloadResult}
    (hr : Racing c expectedSha256 (handle :: handles) h)
    (hfinished : finished.result = JobResult.peerDownload result)
    (hresult : result.success = false) :
    Racing c expectedSha256 handles
      (h ++ [.joined handle.1 (Job.downloadFromPeer c handle.2 expectedSha256) finished]) where
  spawned other hmem := List.mem_append_left _ (hr.spawned other (List.mem_cons_of_mem _ hmem))
  others id job hmem := by
    simp only [List.mem_append, List.mem_singleton, reduceCtorEq, or_false] at hmem
    rcases hr.others id job hmem with hfailed | ⟨other, hother, rfl, rfl⟩
    · exact Or.inl (hfailed.append _)
    · rcases List.mem_cons.mp hother with rfl | hlater
      · exact Or.inl ⟨finished, by simp, result, hfinished, hresult⟩
      · exact Or.inr ⟨other, hlater, rfl, rfl⟩
  quiet := by rw [connectsOf_append, hr.quiet, connectsOf_joined, List.append_nil]

theorem meets_spawnDownloads (c : Nat) (peers : List PeerNode) {handles : List (Nat × PeerNode)}
    (hs : Settled H .call expectedSha256 ctx (Racing c expectedSha256 handles) h found s) :
    (spawnDownloads c expectedSha256 peers).Meets (downloads net .call expectedSha256 ctx)
      (fun h new found s => new.map Prod.snd = peers ∧
        Settled H .call expectedSha256 ctx (Racing c expectedSha256 (handles ++ new)) h found s)
      h found s := by
  induction peers generalizing handles h found s with
  | nil => exact ⟨rfl, by rwa [List.append_nil]⟩
  | cons peer peers ih =>
      refine Meets.bind ⟨hs.leaves, ⟨Or.inl hs.clear, rfl, c, peer, rfl⟩,
        fun s' (id : Nat) hadmits => ?_⟩
      have hclear : Clear ctx s' := hadmits.1.resolve_right fun hclose => nomatch hclose.1
      have hs' : Settled H .call expectedSha256 ctx
          (Racing c expectedSha256 (handles ++ [(id, peer)])) _ s' s' :=
        settled_start hclear (hs.known.spawn id peer)
      refine Meets.seq (ih hs') ?_
      rintro h new found s ⟨hpeers, hs⟩
      refine ⟨by rw [List.map_cons, hpeers], ?_⟩
      rwa [List.append_assoc] at hs

theorem meets_joinDownload {c : Nat} {handle : Nat × PeerNode}
    {post : List (Event nodeSignature) → PeerDownloadResult → Node → Node → Prop}
    (hleaves : Raises (Role.call.Wins H expectedSha256 h) found s)
    (hwaits : Clear ctx s ∨ Won h)
    (hspawned : .spawned handle.1 (Job.downloadFromPeer c handle.2 expectedSha256) ∈ h)
    (hpost : ∀ (finished : Finished nodeSignature) result s', Clear ctx s' →
      finished.result = JobResult.peerDownload result →
      (c ∈ ctx → net.delivers expectedSha256 handle.2.address handle.2.port →
        result.success = true) →
      post (h ++ [.joined handle.1 (Job.downloadFromPeer c handle.2 expectedSha256) finished])
        result s' s') :
    (joinDownload c expectedSha256 handle).Meets (downloads net .call expectedSha256 ctx) post h
      found s := by
  refine ⟨hleaves, ⟨hwaits, rfl, ⟨c, handle.2, rfl⟩, hspawned⟩, fun s' finished hadmits => ?_⟩
  obtain ⟨hclear, hjoined⟩ := hadmits
  have hclear : Clear ctx s' := hclear.resolve_right fun hclose => nomatch hclose.1
  obtain ⟨exchanges, result⟩ := finished
  cases result with
  | peerDownload result => exact hpost _ result s' hclear rfl hjoined
  | _ => exact hjoined.elim

theorem Won.append (hwon : Won h) (new : List (Event nodeSignature)) : Won (h ++ new) := by
  obtain ⟨id, job, finished, hspawned, hjoined, hbrought⟩ := hwon
  exact ⟨id, job, finished, List.mem_append_left new hspawned, List.mem_append_left new hjoined,
    hbrought⟩

theorem meets_joinDownloads_won {c : Nat} {handles : List (Nat × PeerNode)} {data : Bytes}
    (hleaves : Raises (Role.call.Wins H expectedSha256 h) found s)
    (hwon : Won h)
    (hspawned : ∀ handle ∈ handles,
      .spawned handle.1 (Job.downloadFromPeer c handle.2 expectedSha256) ∈ h) :
    (joinDownloads c expectedSha256 handles (some data)).Meets
      (downloads net .call expectedSha256 ctx)
      (fun h result found s => Raises (Role.call.Wins H expectedSha256 h) found s ∧
        result = some data ∧ Won h) h found s := by
  induction handles generalizing h found s with
  | nil => exact ⟨hleaves, rfl, hwon⟩
  | cons handle handles ih =>
      refine Meets.bind (meets_joinDownload hleaves (Or.inr hwon) (hspawned handle (by simp)) ?_)
      intro finished result s' _ _ _
      simp only [Option.isNone_some, Bool.false_and, Bool.false_eq_true, if_false]
      refine ih (Raises.refl _ s') (hwon.append _) ?_
      intro other hother
      exact List.mem_append_left _ (hspawned other (List.mem_cons_of_mem _ hother))

/-- Without a winner every download has failed, so none was from a peer that
delivers. -/
theorem meets_joinDownloads (c : Nat) {handles : List (Nat × PeerNode)}
    (hs : Settled H .call expectedSha256 ctx (Racing c expectedSha256 handles) h found s) :
    (joinDownloads c expectedSha256 handles none).Meets (downloads net .call expectedSha256 ctx)
      (fun h result found s => Raises (Role.call.Wins H expectedSha256 h) found s ∧
        (result = none → Clear ctx s ∧ Contacted [] h ∧ (c ∈ ctx → ∀ handle ∈ handles,
          ¬net.delivers expectedSha256 handle.2.address handle.2.port)) ∧
        (result.isSome = true → Won h)) h found s := by
  induction handles generalizing h found s with
  | nil =>
      exact ⟨hs.leaves, fun _ => ⟨hs.clear, hs.known.contacted, fun _ => nofun⟩,
        fun hsome => nomatch hsome⟩
  | cons handle handles ih =>
      refine Meets.bind (meets_joinDownload hs.leaves (Or.inl hs.clear)
        (hs.known.spawned handle (by simp)) ?_)
      intro finished result s' hclear hfinished hdelivers
      have hspawned : ∀ other ∈ handles, Event.spawned other.1
          (Job.downloadFromPeer c other.2 expectedSha256) ∈ h ++ [.joined handle.1
            (Job.downloadFromPeer c handle.2 expectedSha256) finished] := fun other hother =>
        List.mem_append_left _ (hs.known.spawned other (List.mem_cons_of_mem _ hother))
      cases hresult : result.success with
      | true =>
          have hbrought : Brought (.joined handle.1
              (Job.downloadFromPeer c handle.2 expectedSha256) finished) := by
            obtain ⟨exchanges, value⟩ := finished
            cases hfinished
            exact hresult
          have hwon : Won (h ++ [.joined handle.1
              (Job.downloadFromPeer c handle.2 expectedSha256) finished]) :=
            ⟨handle.1, _, finished, List.mem_append_left _ (hs.known.spawned handle (by simp)),
              by simp, hbrought⟩
          simp only [Option.isNone_none, Bool.and_self, if_true]
          refine Meets.bind (meets_onTransfer ?_)
          refine (meets_joinDownloads_won (raises_adopt (Raises.refl _ s')
            (Or.inr ⟨h, _, rfl, hbrought⟩) c result) hwon hspawned).mono ?_
          rintro h value found s ⟨hleaves, rfl, hwon⟩
          exact ⟨hleaves, fun hnone => (nomatch hnone), fun _ => hwon⟩
      | false =>
          simp only [Bool.and_false, Bool.false_eq_true, if_false]
          refine (ih (settled_start hclear (hs.known.join hfinished hresult))).mono ?_
          rintro h value found s ⟨hleaves, hnone, hsome⟩
          refine ⟨hleaves, fun hvalue => ?_, hsome⟩
          obtain ⟨hclear, hasked, hnobody⟩ := hnone hvalue
          refine ⟨hclear, hasked, fun hc other hother hd => ?_⟩
          rcases List.mem_cons.mp hother with rfl | hlater
          · rw [hdelivers hc hd] at hresult
            cases hresult
          · exact hnobody hc other hlater hd

/-! ## The whole call -/

/-- One of the candidates is a peer that delivers.  Peers are told apart by
their node ids: a candidate with the id of one that was tried is not tried. -/
def HasSupplier (net : Suppliers H) (expectedSha256 : Bytes) (candidates : List PeerNode) : Prop :=
  ∃ peer ∈ candidates, ∀ other ∈ candidates, other.nodeId = peer.nodeId →
    net.delivers expectedSha256 other.address other.port

/-- A peer that delivers takes part in the race or is left for the fallback. -/
theorem HasSupplier.cases {candidates selected : List PeerNode}
    (h : HasSupplier net expectedSha256 candidates) (hselected : selected ⊆ candidates) :
    (∃ peer ∈ selected, net.delivers expectedSha256 peer.address peer.port) ∨
      ∃ peer ∈ candidates.filter fun candidate =>
          selected.all fun tried => candidate.nodeId != tried.nodeId,
        net.delivers expectedSha256 peer.address peer.port := by
  obtain ⟨peer, hpeer, hdelivers⟩ := h
  by_cases htried : ∃ tried ∈ selected, tried.nodeId = peer.nodeId
  · obtain ⟨tried, hmem, hsame⟩ := htried
    exact Or.inl ⟨tried, hmem, hdelivers tried (hselected hmem) hsame⟩
  · refine Or.inr ⟨peer, List.mem_filter.mpr ⟨hpeer, ?_⟩, hdelivers peer hpeer rfl⟩
    rw [List.all_eq_true]
    intro tried hmem
    simp only [bne_iff_ne, ne_eq]
    exact fun hsame => htried ⟨tried, hmem, hsame.symm⟩

def remaining (candidates selected : List PeerNode) : List PeerNode :=
  candidates.filter fun candidate => selected.all fun tried => candidate.nodeId != tried.nodeId

/-- How a call fares that finds its flag clear: it wins the race, or none of the
selected peers delivers and it tries the others in turn. -/
def Fares (net : Suppliers H) (expectedSha256 : Bytes) (candidates selected : List PeerNode)
    (h : List (Event nodeSignature)) (result : Option Bytes) : Prop :=
  (Won h ∧ result.isSome = true) ∨
    ((∀ peer ∈ selected, ¬net.delivers expectedSha256 peer.address peer.port) ∧
      ∃ tried, connectsOf h = tried.map endpoint ∧
        Tries net expectedSha256 (remaining candidates selected) tried result)

theorem Fares.isSome {candidates selected : List PeerNode} {result : Option Bytes}
    (h' : Fares net expectedSha256 candidates selected h result)
    (hselected : selected ⊆ candidates) (hsupplier : HasSupplier net expectedSha256 candidates) :
    result.isSome = true := by
  rcases h' with ⟨-, hsome⟩ | ⟨hnobody, tried, -, htries⟩
  · exact hsome
  · rcases hsupplier.cases hselected with ⟨peer, hpeer, hd⟩ | ⟨peer, hpeer, hd⟩
    · exact absurd hd (hnobody peer hpeer)
    · by_contra hnone
      exact (htries.exhausted (by simpa using hnone)).2 peer hpeer hd

theorem meets_raceDownloads (c : Nat) {candidates selected : List PeerNode}
    (hs : Settled H .call expectedSha256 ctx (Racing c expectedSha256 []) h found s) :
    (raceDownloads H c expectedSha256 candidates selected).Meets
      (downloads net .call expectedSha256 ctx)
      (fun h result found s => Raises (Role.call.Wins H expectedSha256 h) found s ∧
        (result = none → AllFailed h) ∧
        (c ∈ ctx → Fares net expectedSha256 candidates selected h result)) h found s := by
  refine Meets.seq (meets_spawnDownloads c selected hs) ?_
  rintro h handles found s ⟨hpeers, hs⟩
  refine Meets.seq (meets_joinDownloads c hs) ?_
  rintro h winner found s ⟨hleaves, hnone, hwon⟩
  cases winner with
  | some data => exact ⟨hleaves, fun hnone => (nomatch hnone), fun _ => Or.inl ⟨hwon rfl, rfl⟩⟩
  | none =>
      obtain ⟨hclear, hasked, hnobody⟩ := hnone rfl
      refine (meets_tryFallback c _ ⟨hleaves, hclear, hasked⟩).mono ?_
      rintro h result found s ⟨hleaves, hfailed, htries⟩
      refine ⟨hleaves, fun _ => hfailed, fun hc => Or.inr ⟨fun peer hpeer => ?_, htries hc⟩⟩
      rw [← hpeers] at hpeer
      obtain ⟨handle, hhandle, rfl⟩ := List.mem_map.mp hpeer
      exact hnobody hc handle hhandle

structure HasCalled (net : Suppliers H) (request : TransferRequest) (ctx : Option Nat) (s : Node)
    (h : List (Event nodeSignature)) (result : Option Bytes) : Prop where
  failed : result = none → AllFailed h
  reserved : s.transfer.running = true → (beginDownload request s).1 ≠ .unreserved
  fares : s.transfer.running = true → ∀ c candidates selected,
    (beginDownload request s).1 = .race c candidates selected → c ∈ ctx →
      Fares net request.expectedSha256 candidates selected h result

/-- A call with a candidate that delivers returns data if it returns. -/
theorem HasCalled.isSome {request : TransferRequest} {result : Option Bytes}
    (h' : HasCalled net request ctx s h result) (hrunning : s.transfer.running = true)
    (hctx : (openContext request s.transfer).1 ∈ ctx)
    (hsupplier : HasSupplier net request.expectedSha256
      (findCandidates request s.transfer s.discovery).1) : result.isSome = true := by
  rcases beginDownload_cases request s with ⟨hcannot, hearly⟩ | ⟨-, selected, hbegun, rest, hperm⟩
  · have hnobody := hearly.resolve_left (h'.reserved hrunning)
    obtain ⟨peer, hpeer, -⟩ := hsupplier
    rw [candidates_of_nobody hnobody] at hpeer
    cases hpeer
  · exact (h'.fares hrunning _ _ _ hbegun hctx).isSome
      (List.Subset.trans (List.subset_append_left _ rest) hperm.subset) hsupplier

theorem allFailed_nil : AllFailed [] := fun _ _ hmem => nomatch hmem

theorem meets_downloadChunk (request : TransferRequest) (hclear : Clear ctx s) :
    (downloadChunk H request).Meets (downloads net .call request.expectedSha256 ctx)
      (fun h result found s' => Raises (Role.call.Wins H request.expectedSha256 h) found s' ∧
        HasCalled net request ctx s h result) [] s s := by
  refine Meets.bind (meets_onTransfer ?_)
  split
  · rename_i hstopped
    have hidle : ¬s.transfer.running = true := by simpa using hstopped
    exact ⟨Raises.refl _ s, fun _ => allFailed_nil, fun hrunning => absurd hrunning hidle,
      fun hrunning => absurd hrunning hidle⟩
  have hstill := still_beginDownload request s
  have hbegin : some (beginDownload request s) =
      some ((beginDownload request s).1, (beginDownload request s).2) := rfl
  refine Meets.bind (meets_atomically hbegin ?_)
  rcases beginDownload_cases request s with ⟨-, hnone | hnone⟩ | ⟨-, selected, hbegun, -⟩
  · rw [hnone]
    exact ⟨rfl, (Raises.refl _ s).still hstill⟩
  · rw [hnone]
    refine ⟨(Raises.refl _ s).still hstill, fun _ => allFailed_nil, fun _ => ?_, ?_⟩
    · rw [hnone]
      simp
    · intro _ c candidates selected hbegun
      rw [hnone] at hbegun
      cases hbegun
  · rw [hbegun]
    have hracing : Racing (openContext request s.transfer).1 request.expectedSha256 [] [] :=
      ⟨fun _ hmem => (nomatch hmem), fun _ _ hmem => (nomatch hmem), rfl⟩
    refine Meets.seq (meets_raceDownloads _
      ⟨(Raises.refl _ s).still hstill, hclear.still hstill, hracing⟩) ?_
    rintro h result found s' ⟨hleaves, hnone, hfares⟩
    refine Meets.bind (meets_onTransfer ?_)
    replace hleaves := hleaves.still (still_endDownload request.chunkId
      (openContext request s.transfer).1 result s')
    split
    · refine ⟨hleaves, hnone, fun _ => ?_, ?_⟩
      · rw [hbegun]
        simp
      · intro _ c candidates selected' hbegun' hc
        rw [hbegun] at hbegun'
        cases hbegun'
        exact hfares hc
    · exact ⟨rfl, hleaves⟩

end Call

end ElioP2P.P2P
