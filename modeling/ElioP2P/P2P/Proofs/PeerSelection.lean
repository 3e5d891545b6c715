import ElioP2P.P2P.Proofs.Delivery

/-!
# The peers that are selected

`select_k_peers` sorts the candidates by the key of the mode and keeps the
first ones.  How many it keeps is computed in 32 bits.
-/

namespace ElioP2P.P2P

open ElioP2P.Library

/-- The sum of the rarities of everything the peer holds, modulo `2^32`. -/
def raritySum (discovery : NodeDiscovery) (peer : PeerNode) : Nat :=
  (peer.availableChunks.toList.map fun chunk => (discovery.getChunkRarity chunk).toNat).sum % 2 ^ 32

def Better (discovery : NodeDiscovery) : TransferMode → PeerNode → PeerNode → Prop
  | .nearestFirst, a, b => a.latencyMs.rank < b.latencyMs.rank
  | .fastestFirst, a, b => b.throughputMbps.rank < a.throughputMbps.rank
  | .rarestFirst, a, b => raritySum discovery a < raritySum discovery b

def Measured (peer : PeerNode) : Prop :=
  peer.latencyMs.isNaN = false ∧ peer.throughputMbps.isNaN = false

instance (peer : PeerNode) : Decidable (Measured peer) := inferInstanceAs (Decidable (_ ∧ _))

structure BestOf (better : PeerNode → PeerNode → Prop) (candidates selected rest : List PeerNode) :
    Prop where
  perm : (selected ++ rest).Perm candidates
  sorted : selected.Pairwise fun a b => ¬ better b a
  best : ∀ a ∈ selected, ∀ b ∈ rest, ¬ better b a

structure SelectsBest (hasNodeDiscovery : Bool) (discovery : NodeDiscovery)
    (candidates : List PeerNode) (k : UInt32) (mode : TransferMode) (selected : List PeerNode) :
    Prop where
  length : selected.length = min k.toNat candidates.length
  submultiset : ∃ rest, (selected ++ rest).Perm candidates
  best : (mode = .rarestFirst → hasNodeDiscovery = true) →
    ∃ rest, BestOf (Better discovery mode) candidates selected rest

/-! ## Keys -/

theorem toNat_foldl_add (f : Bytes → UInt32) (chunks : List Bytes) (score : UInt32) :
    (chunks.foldl (fun score chunk => score + f chunk) score).toNat =
      (score.toNat + (chunks.map fun chunk => (f chunk).toNat).sum) % 2 ^ 32 := by
  induction chunks generalizing score with
  | nil =>
      rw [List.foldl_nil, List.map_nil, List.sum_nil, Nat.add_zero,
        Nat.mod_eq_of_lt score.toNat_lt]
  | cons chunk chunks ih =>
      rw [List.foldl_cons, ih, UInt32.toNat_add, Nat.mod_add_mod, List.map_cons, List.sum_cons,
        Nat.add_assoc]

theorem toNat_rarityScore (discovery : NodeDiscovery) (peer : PeerNode) :
    (TransferManager.rarityScore discovery peer).toNat = raritySum discovery peer := by
  rw [TransferManager.rarityScore, toNat_foldl_add, raritySum]
  exact congrArg (· % 2 ^ 32) (Nat.zero_add _)

theorem lt_iff_rank {a b : Double} (ha : a.isNaN = false) (hb : b.isNaN = false) :
    a.lt b = true ↔ a.rank < b.rank := by
  simp [Double.lt, ha, hb]

theorem strictWeakOrder_of_key {α : Type} [LinearOrder α] {peers : List PeerNode}
    {lt : PeerNode → PeerNode → Bool} (key : PeerNode → α)
    (hlt : ∀ a ∈ peers, ∀ b ∈ peers, (lt a b = true ↔ key a < key b)) :
    StrictWeakOrder peers lt where
  asymm a ha b hb hab := by
    rw [← Bool.not_eq_true, hlt b hb a ha]
    exact ((hlt a ha b hb).mp hab).asymm
  cotrans a ha b hb c hc hac := by
    rw [hlt a ha b hb, hlt b hb c hc]
    rcases lt_or_ge (key a) (key b) with hab | hba
    · exact .inl hab
    · exact .inr (hba.trans_lt ((hlt a ha c hc).mp hac))

/-! ## Selecting -/

theorem bestOf_take {better : PeerNode → PeerNode → Prop} {lt : PeerNode → PeerNode → Bool}
    (sort : PeerSort) {candidates : List PeerNode} (horder : StrictWeakOrder candidates lt)
    (hlt : ∀ a ∈ candidates, ∀ b ∈ candidates, (lt a b = true ↔ better a b)) (n : Nat) :
    BestOf better candidates ((sort.apply lt candidates).take n)
      ((sort.apply lt candidates).drop n) := by
  have hperm := sort.perm lt candidates
  have hsorted := sort.sorted lt candidates horder
  have hmem : ∀ a ∈ sort.apply lt candidates, a ∈ candidates := fun a => hperm.mem_iff.mp
  have hnot : ∀ a ∈ candidates, ∀ b ∈ candidates, lt b a = false → ¬ better b a := by
    intro a ha b hb hfalse hbetter
    rw [(hlt b hb a ha).mpr hbetter] at hfalse
    cases hfalse
  rw [← List.take_append_drop n (sort.apply lt candidates), List.pairwise_append] at hsorted
  obtain ⟨htake, -, hcross⟩ := hsorted
  refine ⟨by rwa [List.take_append_drop], ?_, ?_⟩
  · refine htake.imp_of_mem fun ha hb => ?_
    exact hnot _ (hmem _ (List.mem_of_mem_take ha)) _ (hmem _ (List.mem_of_mem_take hb))
  · intro a ha b hb
    exact hnot a (hmem a (List.mem_of_mem_take ha)) b (hmem b (List.mem_of_mem_drop hb))
      (hcross a ha b hb)

section Select

variable {t : TransferManager} {discovery : NodeDiscovery} {candidates : List PeerNode} {k : UInt32}
  {mode : TransferMode}

/-- The number of peers to select, computed in 32 bits. -/
def actualK (candidates : List PeerNode) (k : UInt32) : Nat :=
  min k.toNat (candidates.length % 2 ^ 32)

theorem toNat_min_ofNat (k : UInt32) (n : Nat) :
    (min k (UInt32.ofNat n)).toNat = min k.toNat (n % 2 ^ 32) := by
  have hmin : min k (UInt32.ofNat n) = if k ≤ UInt32.ofNat n then k else UInt32.ofNat n := rfl
  rw [hmin, ← UInt32.toNat_ofNat' (n := n)]
  split
  · next hle => rw [Nat.min_eq_left (UInt32.le_iff_toNat_le.mp hle)]
  · next hle =>
      rw [UInt32.le_iff_toNat_le] at hle
      rw [Nat.min_eq_right (by omega)]

theorem selectKPeers_spec (hmeasured : ∀ peer ∈ candidates, Measured peer) :
    ∃ ordered : List PeerNode, ordered.Perm candidates ∧
      (t.selectKPeers discovery candidates k mode).1 = ordered.take (actualK candidates k) ∧
      ((mode = .rarestFirst → t.hasNodeDiscovery = true) →
        BestOf (Better discovery mode) candidates (ordered.take (actualK candidates k))
          (ordered.drop (actualK candidates k))) := by
  by_cases hempty : candidates = []
  · subst hempty
    refine ⟨[], List.Perm.nil, List.take_nil.symm, fun _ => ?_⟩
    rw [List.take_nil, List.drop_nil]
    exact ⟨List.Perm.nil, List.Pairwise.nil, fun a ha => absurd ha List.not_mem_nil⟩
  have hisEmpty : candidates.isEmpty = false := List.isEmpty_eq_false_iff.mpr hempty
  have hcount := toNat_min_ofNat k candidates.length
  unfold TransferManager.selectKPeers
  simp only [hisEmpty, Bool.false_eq_true, if_false, hcount]
  cases mode with
  | nearestFirst =>
      have hlt : ∀ a ∈ candidates, ∀ b ∈ candidates,
          (a.latencyMs.lt b.latencyMs = true ↔ a.latencyMs.rank < b.latencyMs.rank) :=
        fun a ha b hb => lt_iff_rank (hmeasured a ha).1 (hmeasured b hb).1
      exact ⟨_, t.sort.perm _ candidates, rfl, fun _ =>
        bestOf_take t.sort (strictWeakOrder_of_key (fun peer => peer.latencyMs.rank) hlt) hlt _⟩
  | fastestFirst =>
      have hlt : ∀ a ∈ candidates, ∀ b ∈ candidates,
          (b.throughputMbps.lt a.throughputMbps = true ↔
            b.throughputMbps.rank < a.throughputMbps.rank) :=
        fun a ha b hb => lt_iff_rank (hmeasured b hb).2 (hmeasured a ha).2
      have hkey : ∀ a ∈ candidates, ∀ b ∈ candidates,
          (b.throughputMbps.lt a.throughputMbps = true ↔
            OrderDual.toDual a.throughputMbps.rank < OrderDual.toDual b.throughputMbps.rank) := hlt
      exact ⟨_, t.sort.perm _ candidates, rfl, fun _ =>
        bestOf_take t.sort (strictWeakOrder_of_key
          (fun peer => OrderDual.toDual peer.throughputMbps.rank) hkey) hlt _⟩
  | rarestFirst =>
      have hlt : ∀ a ∈ candidates, ∀ b ∈ candidates,
          (decide (TransferManager.rarityScore discovery a <
              TransferManager.rarityScore discovery b) = true ↔
            raritySum discovery a < raritySum discovery b) := by
        intro a _ b _
        rw [decide_eq_true_eq, UInt32.lt_iff_toNat_lt, toNat_rarityScore, toNat_rarityScore]
      by_cases hdiscovery : t.hasNodeDiscovery = true
      · simp only [hdiscovery, if_true]
        exact ⟨_, t.sort.perm _ candidates, rfl, fun _ =>
          bestOf_take t.sort (strictWeakOrder_of_key (raritySum discovery) hlt) hlt _⟩
      · simp only [hdiscovery, Bool.false_eq_true, if_false]
        exact ⟨_, (t.rng t.shuffles).perm candidates, rfl, fun h => by
          cases h trivial⟩

/-- The selection is right exactly if the number of candidates fits into 32
bits or what is left of it is no less than `k`. -/
theorem selectKPeers_selectsBest_iff (hmeasured : ∀ peer ∈ candidates, Measured peer) :
    SelectsBest t.hasNodeDiscovery discovery candidates k mode
        (t.selectKPeers discovery candidates k mode).1 ↔
      candidates.length < 2 ^ 32 ∨ k.toNat ≤ candidates.length % 2 ^ 32 := by
  obtain ⟨ordered, hperm, hselect, hbest⟩ :=
    @selectKPeers_spec t discovery candidates k mode hmeasured
  have hlength : (ordered.take (actualK candidates k)).length = actualK candidates k := by
    rw [List.length_take, hperm.length_eq, actualK]
    have hmod := Nat.mod_le candidates.length (2 ^ 32)
    omega
  have hcount : actualK candidates k = min k.toNat candidates.length ↔
      candidates.length < 2 ^ 32 ∨ k.toNat ≤ candidates.length % 2 ^ 32 := by
    have hk := k.toNat_lt
    unfold actualK
    omega
  rw [hselect]
  constructor
  · intro h
    rw [← hcount, ← hlength]
    exact h.length
  · intro h
    refine ⟨hlength.trans (hcount.mpr h), ⟨ordered.drop (actualK candidates k), ?_⟩,
      fun hmode => ⟨_, hbest hmode⟩⟩
    rwa [List.take_append_drop]

end Select

def threePeers : List PeerNode :=
  [{ nodeId := ascii "a", latencyMs := ⟨2⟩ }, { nodeId := ascii "b", latencyMs := ⟨1⟩ },
    { nodeId := ascii "c", latencyMs := ⟨2⟩ }]

theorem selectKPeers_selectsBest_three :
    SelectsBest sampleTransfer.hasNodeDiscovery sampleNode.discovery threePeers 2 .nearestFirst
      (sampleTransfer.selectKPeers sampleNode.discovery threePeers 2 .nearestFirst).1 :=
  (selectKPeers_selectsBest_iff (by decide)).mpr (.inl (by decide))

/-- Of `2^32` candidates none is selected: their number is taken as zero. -/
theorem not_selectsBest_wrapped :
    (∀ peer ∈ List.replicate (2 ^ 32) ({} : PeerNode), Measured peer) ∧
      ¬ SelectsBest sampleTransfer.hasNodeDiscovery sampleNode.discovery
        (List.replicate (2 ^ 32) {}) 1 .nearestFirst
        (sampleTransfer.selectKPeers sampleNode.discovery (List.replicate (2 ^ 32) {}) 1
          .nearestFirst).1 := by
  have hmeasured : ∀ peer ∈ List.replicate (2 ^ 32) ({} : PeerNode), Measured peer := by
    intro peer hpeer
    rw [(List.mem_replicate.mp hpeer).2]
    exact ⟨by decide, by decide⟩
  refine ⟨hmeasured, fun h => ?_⟩
  obtain ⟨ordered, -, hselect, -⟩ :=
    @selectKPeers_spec sampleTransfer sampleNode.discovery _ 1 .nearestFirst hmeasured
  have hlength := h.length
  rw [hselect, actualK, List.length_replicate, Nat.mod_self, Nat.min_zero,
    List.take_zero] at hlength
  cases hlength

end ElioP2P.P2P
