import ElioP2P.P2P.Proofs.Deduplication

/-!
# Announcements in any order

A `ChunkAnnounce` message only adds: to location sets and to the chunks of known
peers.  So a collection of them ends in the same tables however often and in
whatever order its messages arrive, and whenever the set of seen ids is dropped
in between.  What is needed is that a message which is ignored has already had
its effect: one that was seen before the collection arrives may have lost it
again.
-/

namespace ElioP2P.P2P.NodeDiscovery

open ElioP2P.Library

/-! ## Deliveries -/

inductive Delivery where
  | deliver (msg : GossipMessage)
  | clear

/-- The seen ids can be dropped at any time, besides when the code does it. -/
def receiveOrClear (s : NodeDiscovery) : Delivery → NodeDiscovery
  | .deliver msg => s.handleGossipMessage msg
  | .clear => { s with receivedMessages := ∅ }

def Delivers (msgs : List GossipMessage) (deliveries : List Delivery) : Prop :=
  ∀ msg, .deliver msg ∈ deliveries ↔ msg ∈ msgs

def Announces (msgs : List GossipMessage) (nodeId chunk : Bytes) : Prop :=
  ∃ msg ∈ msgs, MemAt msg.chunkMap nodeId chunk

structure HasMerged (s : NodeDiscovery) (msgs : List GossipMessage) (s' : NodeDiscovery) :
    Prop where
  localNodeId : s'.localNodeId = s.localNodeId
  keys : ∀ chunk, (s'.chunkLocations.lookup chunk).isSome = true ↔
    (s.chunkLocations.lookup chunk).isSome = true ∨
      ∃ nodeId, nodeId ≠ s.localNodeId ∧ Announces msgs nodeId chunk
  locates : ∀ chunk nodeId, s'.Locates chunk nodeId ↔
    s.Locates chunk nodeId ∨ (nodeId ≠ s.localNodeId ∧ Announces msgs nodeId chunk)
  unknown : ∀ nodeId, s.peers.lookup nodeId = none → s'.peers.lookup nodeId = none
  known : ∀ nodeId peer, s.peers.lookup nodeId = some peer →
    ∃ chunks, s'.peers.lookup nodeId = some { peer with availableChunks := chunks } ∧
      ∀ chunk, chunk ∈ chunks ↔
        chunk ∈ peer.availableChunks ∨ (nodeId ≠ s.localNodeId ∧ Announces msgs nodeId chunk)

theorem hasMerged_nil (s : NodeDiscovery) : HasMerged s [] s := by
  have hnone : ∀ nodeId chunk, ¬ Announces [] nodeId chunk := by
    rintro nodeId chunk ⟨msg, hmsg, -⟩
    cases hmsg
  refine ⟨rfl, ?_, ?_, fun _ h => h, fun nodeId peer hpeer => ⟨_, hpeer, fun chunk => ?_⟩⟩ <;>
    simp [hnone]

theorem announces_append {msgs : List GossipMessage} {msg : GossipMessage} {nodeId chunk : Bytes} :
    Announces (msgs ++ [msg]) nodeId chunk ↔
      Announces msgs nodeId chunk ∨ MemAt msg.chunkMap nodeId chunk := by
  unfold Announces
  constructor
  · rintro ⟨m, hm, hmem⟩
    rcases List.mem_append.mp hm with hm | hm
    · exact Or.inl ⟨m, hm, hmem⟩
    · rw [List.mem_singleton.mp hm] at hmem
      exact Or.inr hmem
  · rintro (⟨m, hm, hmem⟩ | hmem)
    · exact ⟨m, List.mem_append_left _ hm, hmem⟩
    · exact ⟨msg, by simp, hmem⟩

def Recorded (s : NodeDiscovery) (msg : GossipMessage) : Prop :=
  ∀ nodeId chunk, nodeId ≠ s.localNodeId → MemAt msg.chunkMap nodeId chunk →
    s.Locates chunk nodeId ∧
      ∀ peer, s.peers.lookup nodeId = some peer → chunk ∈ peer.availableChunks

theorem isSome_of_locates {s : NodeDiscovery} {chunk nodeId : Bytes} (h : s.Locates chunk nodeId) :
    (s.chunkLocations.lookup chunk).isSome = true := by
  unfold Locates MemAt at h
  cases hset : s.chunkLocations.lookup chunk with
  | none => simp [hset] at h
  | some locations => rfl

/-! ## One message -/

theorem isSome_mergeLocations (s : NodeDiscovery)
    (chunkMap : AList fun _ : Bytes => HashSet Bytes) (chunk : Bytes) :
    ((s.mergeLocations chunkMap).chunkLocations.lookup chunk).isSome = true ↔
      (s.chunkLocations.lookup chunk).isSome = true ∨
        ∃ nodeId, nodeId ≠ s.localNodeId ∧ MemAt chunkMap nodeId chunk := by
  have hentries : (∃ nodeId, nodeId ≠ s.localNodeId ∧ MemAt chunkMap nodeId chunk) ↔
      ∃ entry ∈ chunkMap.entries, entry.1 ≠ s.localNodeId ∧ chunk ∈ entry.2 := by
    constructor
    · rintro ⟨nodeId, hlocal, hmem⟩
      obtain ⟨entry, hentry, rfl, hchunk⟩ := memAt_iff_entries.mp hmem
      exact ⟨entry, hentry, hlocal, hchunk⟩
    · rintro ⟨entry, hentry, hlocal, hchunk⟩
      exact ⟨entry.1, hlocal, memAt_iff_entries.mpr ⟨entry, hentry, rfl, hchunk⟩⟩
  rw [hentries]
  clear hentries
  unfold mergeLocations
  generalize chunkMap.entries = entries
  induction entries generalizing s with
  | nil => simp
  | cons entry entries ih =>
      rw [List.foldl_cons]
      refine (ih _).trans ?_
      by_cases hlocal : entry.1 = s.localNodeId
      · rw [if_pos hlocal]
        simp [hlocal]
      · rw [if_neg hlocal]
        simp only [addLocations, isSome_lookup_foldl_insertAt, List.mem_cons, exists_eq_or_imp,
          hlocal, ne_eq, not_false_eq_true, true_and, or_assoc]
        rfl

theorem HasMerged.handle {s t : NodeDiscovery} {msgs : List GossipMessage} (msg : GossipMessage)
    (h : HasMerged s msgs t) : HasMerged s (msgs ++ [msg]) (t.handleChunkAnnounce msg) := by
  refine ⟨?_, fun chunk => ?_, fun chunk nodeId => ?_, fun nodeId hnone => ?_,
    fun nodeId peer hpeer => ?_⟩
  · rw [localNodeId_handleChunkAnnounce, h.localNodeId]
  · rw [chunkLocations_handleChunkAnnounce, isSome_mergeLocations, h.keys, h.localNodeId,
      or_assoc]
    refine or_congr_right ?_
    simp only [announces_append, and_or_left, exists_or]
  · rw [locates_handleChunkAnnounce, h.locates, h.localNodeId, announces_append, and_or_left,
      or_assoc]
  · rw [lookup_handleChunkAnnounce, h.unknown nodeId hnone]
    simp
  · obtain ⟨chunks, hchunks, hmem⟩ := h.known nodeId peer hpeer
    rw [lookup_handleChunkAnnounce, hchunks, h.localNodeId]
    by_cases hlocal : nodeId = s.localNodeId
    · refine ⟨chunks, if_pos hlocal, fun chunk => ?_⟩
      rw [hmem]
      simp [hlocal]
    · rw [if_neg hlocal]
      refine ⟨_, rfl, fun chunk => ?_⟩
      rw [HashSet.mem_insertAll, hmem, announces_append]
      have hmap : chunk ∈ ((msg.chunkMap.lookup nodeId).getD ∅).toList ↔
          MemAt msg.chunkMap nodeId chunk := Iff.rfl
      rw [hmap]
      simp only [hlocal, ne_eq, not_false_eq_true, true_and]
      tauto

theorem HasMerged.ignore {s t : NodeDiscovery} {msgs : List GossipMessage} {msg : GossipMessage}
    (h : HasMerged s msgs t) (hrecorded : t.Recorded msg) : HasMerged s (msgs ++ [msg]) t := by
  unfold Recorded at hrecorded
  rw [h.localNodeId] at hrecorded
  refine ⟨h.localNodeId, fun chunk => ?_, fun chunk nodeId => ?_, h.unknown,
    fun nodeId peer hpeer => ?_⟩
  · simp only [announces_append, and_or_left, exists_or]
    rw [← or_assoc, ← h.keys]
    refine (or_iff_left_of_imp ?_).symm
    rintro ⟨nodeId, hlocal, hmem⟩
    exact isSome_of_locates (hrecorded nodeId chunk hlocal hmem).1
  · rw [announces_append, and_or_left, ← or_assoc, ← h.locates]
    refine (or_iff_left_of_imp ?_).symm
    rintro ⟨hlocal, hmem⟩
    exact (hrecorded nodeId chunk hlocal hmem).1
  · obtain ⟨chunks, hchunks, hmem⟩ := h.known nodeId peer hpeer
    refine ⟨chunks, hchunks, fun chunk => ?_⟩
    rw [announces_append, and_or_left, ← or_assoc, ← hmem]
    refine (or_iff_left_of_imp ?_).symm
    rintro ⟨hlocal, hannounced⟩
    exact (hrecorded nodeId chunk hlocal hannounced).2 _ hchunks

theorem Recorded.handle {s : NodeDiscovery} {msg : GossipMessage} (msg' : GossipMessage)
    (h : s.Recorded msg) : (s.handleChunkAnnounce msg').Recorded msg := by
  intro nodeId chunk hlocal hmem
  rw [localNodeId_handleChunkAnnounce] at hlocal
  obtain ⟨hlocates, hchunks⟩ := h nodeId chunk hlocal hmem
  refine ⟨(locates_handleChunkAnnounce _ _ _ _).mpr (Or.inl hlocates), fun peer hpeer => ?_⟩
  rw [lookup_handleChunkAnnounce, if_neg hlocal] at hpeer
  obtain ⟨old, hold, rfl⟩ := Option.map_eq_some_iff.mp hpeer
  exact HashSet.mem_insertAll.mpr (Or.inr (hchunks old hold))

theorem recorded_handleChunkAnnounce {s : NodeDiscovery} {msg msg' : GossipMessage}
    (hsame : msg.Equiv msg') : (s.handleChunkAnnounce msg).Recorded msg' := by
  intro nodeId chunk hlocal hmem
  rw [localNodeId_handleChunkAnnounce] at hlocal
  rw [← hsame.memAt_iff] at hmem
  refine ⟨(locates_handleChunkAnnounce _ _ _ _).mpr (Or.inr ⟨hlocal, hmem⟩), fun peer hpeer => ?_⟩
  rw [lookup_handleChunkAnnounce, if_neg hlocal] at hpeer
  obtain ⟨old, hold, rfl⟩ := Option.map_eq_some_iff.mp hpeer
  exact HashSet.mem_insertAll.mpr (Or.inl hmem)

/-! ## Runs -/

def delivered (deliveries : List Delivery) : List GossipMessage :=
  deliveries.filterMap fun
    | .deliver msg => some msg
    | .clear => none

def SeenRecorded (msgs : List GossipMessage) (s : NodeDiscovery) : Prop :=
  ∀ msg ∈ msgs, s.isMessageSeen msg = true → s.Recorded msg

theorem SameTables.hasMerged {s t t' : NodeDiscovery} {msgs : List GossipMessage}
    (hsame : SameTables t t') (h : HasMerged s msgs t) : HasMerged s msgs t' := by
  refine ⟨hsame.localNodeId.trans h.localNodeId, fun chunk => ?_, fun chunk nodeId => ?_,
    fun nodeId => ?_, fun nodeId => ?_⟩
  · rw [hsame.chunkLocations, h.keys]
  · rw [hsame.locates, h.locates]
  · rw [hsame.peers]
    exact h.unknown nodeId
  · rw [hsame.peers]
    exact h.known nodeId

theorem SameTables.recorded {s s' : NodeDiscovery} {msg : GossipMessage}
    (hsame : SameTables s s') (h : s.Recorded msg) : s'.Recorded msg := by
  intro nodeId chunk hlocal hmem
  rw [hsame.localNodeId] at hlocal
  rw [hsame.locates, hsame.peers]
  exact h nodeId chunk hlocal hmem

section Runs

variable {s : NodeDiscovery} {msgs : List GossipMessage}

theorem hasMerged_deliver (htype : ∀ msg ∈ msgs, msg.type = .chunkAnnounce)
    (hids : ∀ msg ∈ msgs, ∀ msg' ∈ msgs,
      generateMessageId msg = generateMessageId msg' → msg.Equiv msg')
    {t : NodeDiscovery} {before : List GossipMessage} {msg : GossipMessage} (hmsg : msg ∈ msgs)
    (ht : HasMerged s before t) (hseen : SeenRecorded msgs t) :
    HasMerged s (before ++ [msg]) (t.handleGossipMessage msg) ∧
      SeenRecorded msgs (t.handleGossipMessage msg) := by
  cases hignored : t.isMessageSeen msg with
  | true =>
      have hsame : t.handleGossipMessage msg = t := if_pos hignored
      rw [hsame]
      exact ⟨ht.ignore (hseen msg hmsg hignored), hseen⟩
  | false =>
      have hhandled : t.handleGossipMessage msg =
          (t.markMessageSeen msg).handleChunkAnnounce msg := by
        unfold handleGossipMessage
        rw [if_neg (by simp [hignored]), htype msg hmsg]
      have hmarked := sameTables_markMessageSeen t msg
      refine ⟨?_, fun m hm hm' => ?_⟩
      · rw [hhandled]
        exact (hmarked.hasMerged ht).handle msg
      · have hid : generateMessageId m ∈ (t.handleGossipMessage msg).receivedMessages :=
          of_decide_eq_true hm'
        rw [received_handleGossipMessage hignored] at hid
        rw [hhandled]
        rcases mem_markMessageSeen hid with hsame | hbefore
        · exact recorded_handleChunkAnnounce (hids msg hmsg m hm hsame.symm)
        · exact (hmarked.recorded (hseen m hm (decide_eq_true hbefore))).handle msg

/-- Whatever arrives, the tables have what has arrived added to them. -/
theorem hasMerged_deliveries (htype : ∀ msg ∈ msgs, msg.type = .chunkAnnounce)
    (hids : ∀ msg ∈ msgs, ∀ msg' ∈ msgs,
      generateMessageId msg = generateMessageId msg' → msg.Equiv msg')
    {deliveries : List Delivery} (hin : ∀ msg, .deliver msg ∈ deliveries → msg ∈ msgs)
    {t : NodeDiscovery} {before : List GossipMessage} (ht : HasMerged s before t)
    (hseen : SeenRecorded msgs t) :
    HasMerged s (before ++ delivered deliveries) (deliveries.foldl receiveOrClear t) := by
  induction deliveries generalizing t before with
  | nil =>
      rw [delivered, List.filterMap_nil, List.append_nil]
      exact ht
  | cons delivery deliveries ih =>
      have hrest : ∀ msg, .deliver msg ∈ deliveries → msg ∈ msgs :=
        fun msg hmsg => hin msg (List.mem_cons_of_mem _ hmsg)
      cases delivery with
      | deliver msg =>
          obtain ⟨ht', hseen'⟩ := hasMerged_deliver htype hids (hin msg List.mem_cons_self) ht hseen
          have hall := ih hrest ht' hseen'
          rwa [List.append_assoc] at hall
      | clear =>
          have hcleared : SameTables t (t.receiveOrClear .clear) := ⟨rfl, rfl, rfl⟩
          refine ih hrest (hcleared.hasMerged ht) fun msg _ hmsg => ?_
          exact absurd (of_decide_eq_true hmsg) (HashSet.notMem_empty _)

structure SameAvailability (t t' : NodeDiscovery) : Prop where
  keys : ∀ chunk, (t.chunkLocations.lookup chunk).isSome = (t'.chunkLocations.lookup chunk).isSome
  locates : ∀ chunk nodeId, t.Locates chunk nodeId ↔ t'.Locates chunk nodeId
  peers : ∀ nodeId, Option.Rel PeerNode.Equiv (t.peers.lookup nodeId) (t'.peers.lookup nodeId)

def OnlyChunksChanged (s t : NodeDiscovery) : Prop :=
  ∀ nodeId, (t.peers.lookup nodeId).map (fun peer => { peer with availableChunks := ∅ }) =
    (s.peers.lookup nodeId).map fun peer => { peer with availableChunks := ∅ }

theorem HasMerged.agree {t t' : NodeDiscovery} (ht : HasMerged s msgs t)
    (ht' : HasMerged s msgs t') : SameAvailability t t' := by
  refine ⟨fun chunk => ?_, fun chunk nodeId => ?_, fun nodeId => ?_⟩
  · rw [Bool.eq_iff_iff, ht.keys, ht'.keys]
  · rw [ht.locates, ht'.locates]
  · cases hpeer : s.peers.lookup nodeId with
    | none =>
        rw [ht.unknown nodeId hpeer, ht'.unknown nodeId hpeer]
        exact .none
    | some peer =>
        obtain ⟨chunks, hchunks, hmem⟩ := ht.known nodeId peer hpeer
        obtain ⟨chunks', hchunks', hmem'⟩ := ht'.known nodeId peer hpeer
        rw [hchunks, hchunks']
        refine .some ⟨rfl, fun chunk => ?_⟩
        rw [hmem, hmem']

theorem HasMerged.onlyChunksChanged {t : NodeDiscovery} (ht : HasMerged s msgs t) :
    OnlyChunksChanged s t := by
  intro nodeId
  cases hpeer : s.peers.lookup nodeId with
  | none => rw [ht.unknown nodeId hpeer]
  | some peer =>
      obtain ⟨chunks, hchunks, -⟩ := ht.known nodeId peer hpeer
      rw [hchunks]
      rfl

/-- Two deliveries of one collection end in the same tables, if what was seen
before the collection arrives is recorded. -/
theorem deliveries_agree {deliveries deliveries' : List Delivery}
    (htype : ∀ msg ∈ msgs, msg.type = .chunkAnnounce)
    (hids : ∀ msg ∈ msgs, ∀ msg' ∈ msgs,
      generateMessageId msg = generateMessageId msg' → msg.Equiv msg')
    (hseen : ∀ msg ∈ msgs, s.isMessageSeen msg = true → s.Recorded msg)
    (hd : Delivers msgs deliveries) (hd' : Delivers msgs deliveries') :
    SameAvailability (deliveries.foldl receiveOrClear s) (deliveries'.foldl receiveOrClear s) ∧
      OnlyChunksChanged s (deliveries.foldl receiveOrClear s) := by
  have hall : ∀ ds, Delivers msgs ds → HasMerged s msgs (ds.foldl receiveOrClear s) := by
    intro ds hds
    have hrun := hasMerged_deliveries htype hids (fun msg hmsg => (hds msg).mp hmsg)
      (hasMerged_nil s) hseen
    have hstated : ∀ nodeId chunk, Announces (delivered ds) nodeId chunk ↔
        Announces msgs nodeId chunk := by
      have hmem : ∀ msg, msg ∈ delivered ds ↔ msg ∈ msgs := by
        intro msg
        rw [← hds msg, delivered, List.mem_filterMap]
        constructor
        · rintro ⟨delivery, hdelivery, hmsg⟩
          cases delivery with
          | deliver m =>
              cases hmsg
              exact hdelivery
          | clear => cases hmsg
        · exact fun h => ⟨_, h, rfl⟩
      intro nodeId chunk
      simp only [Announces, hmem]
    rw [List.nil_append] at hrun
    refine ⟨hrun.localNodeId, ?_, ?_, hrun.unknown, ?_⟩
    · simpa only [hstated] using hrun.keys
    · simpa only [hstated] using hrun.locates
    · simpa only [hstated] using hrun.known
  exact ⟨(hall _ hd).agree (hall _ hd'), (hall _ hd).onlyChunksChanged⟩

end Runs

def listener : NodeDiscovery :=
  (registered (ascii "A")).addPeer { nodeId := ascii "B", lastSeen := 1700000000 }

theorem deliveries_agree_sample :
    SameAvailability
        ([.deliver (announcement [ascii "c"]), .deliver (announcement [ascii "d"])].foldl
          receiveOrClear listener)
        ([.deliver (announcement [ascii "d"]), .clear, .deliver (announcement [ascii "d"]),
          .deliver (announcement [ascii "c"])].foldl receiveOrClear listener) ∧
      OnlyChunksChanged listener
        ([.deliver (announcement [ascii "c"]), .deliver (announcement [ascii "d"])].foldl
          receiveOrClear listener) := by
  have hmem : ∀ msg, msg ∈ [announcement [ascii "c"], announcement [ascii "d"]] →
      msg = announcement [ascii "c"] ∨ msg = announcement [ascii "d"] := by
    intro msg hmsg
    simpa using hmsg
  have hdelivers : Delivers [announcement [ascii "c"], announcement [ascii "d"]]
      [.deliver (announcement [ascii "c"]), .deliver (announcement [ascii "d"])] := by
    intro msg
    simp
  refine deliveries_agree (fun msg hmsg => ?_) (fun msg hmsg msg' hmsg' hid => ?_)
    (fun msg hmsg hseen => ?_) hdelivers (fun msg => ?_)
  · rcases hmem msg hmsg with rfl | rfl <;> rfl
  · rcases hmem msg hmsg with rfl | rfl <;> rcases hmem msg' hmsg' with rfl | rfl <;>
      first
        | exact .refl _
        | exact absurd hid (by decide +kernel)
  · rcases hmem msg hmsg with rfl | rfl <;> exact absurd hseen (by decide +kernel)
  · simp only [List.mem_cons, Delivery.deliver.injEq, reduceCtorEq, List.not_mem_nil, or_false,
      false_or]
    tauto

def heardAndRemoved : NodeDiscovery :=
  ((registered (ascii "A")).handleGossipMessage (announcement [ascii "c"])).handleGossipMessage
    { announcement [ascii "c"] with type := .chunkRemove }

/-- The announcement arrives once more: it is ignored, unless the seen ids have
been dropped. -/
theorem not_sameAvailability_seen :
    (announcement [ascii "c"]).type = .chunkAnnounce ∧
    Delivers [announcement [ascii "c"]] [.deliver (announcement [ascii "c"])] ∧
    Delivers [announcement [ascii "c"]] [.clear, .deliver (announcement [ascii "c"])] ∧
    ¬ SameAvailability
      ([.deliver (announcement [ascii "c"])].foldl receiveOrClear heardAndRemoved)
      ([.clear, .deliver (announcement [ascii "c"])].foldl receiveOrClear heardAndRemoved) := by
  refine ⟨rfl, fun msg => by simp, fun msg => by simp, fun h => ?_⟩
  have hlocates := (h.locates (ascii "c") (ascii "B")).mpr (by decide +kernel)
  revert hlocates
  decide +kernel

end ElioP2P.P2P.NodeDiscovery
