import ElioP2P.Library.FileSystem
import ElioP2P.P2P.NodeDiscovery
import Mathlib.Data.List.Sort

/-!
# The state of the transfer manager

The data of `include/eliop2p/p2p/transfer.h` and the parts of
`src/p2p/transfer.cpp` that never suspend: the bandwidth limiter's bookkeeping,
transfer contexts, saved progress and the selection of peers.

A context is shared by everyone who downloads the chunk and outlives its entry
in the table of active transfers, so contexts have addresses: positions in the
list of all contexts ever made.
-/

namespace ElioP2P.P2P

open ElioP2P.Library

inductive TransferMode where
  | nearestFirst
  | fastestFirst
  | rarestFirst
  deriving DecidableEq

structure TransferRequest where
  chunkId : Bytes
  objectKey : Bytes := []
  expectedSize : Nat := 0
  mode : TransferMode := .fastestFirst
  kValue : UInt32 := 5
  enableResume : Bool := true
  sources : List PeerNode := []
  expectedSha256 : Bytes := []
  deriving DecidableEq

/-! ## Bandwidth -/

/-- Times are readings of the steady clock in nanoseconds. -/
structure BandwidthLimiter where
  maxBytesPerSec : Nat
  available : Nat
  lastReset : Nat

namespace BandwidthLimiter

def new (maxMbps now : Nat) : BandwidthLimiter :=
  let rate := maxMbps * 1024 * 1024 % 2 ^ 64 / 8
  { maxBytesPerSec := rate, available := rate, lastReset := now }

/-- The critical section of `acquire`: the time to sleep in milliseconds, if
any, and the new state. -/
def acquire (limiter : BandwidthLimiter) (now bytes : Nat) : Option Nat × BandwidthLimiter :=
  if limiter.maxBytesPerSec = 0 then (none, limiter)
  else
    let limiter := if 1 ≤ (now - limiter.lastReset) / 10 ^ 9 then
        { limiter with available := limiter.maxBytesPerSec, lastReset := now }
      else limiter
    if bytes ≤ limiter.available then
      (none, { limiter with available := limiter.available - bytes })
    else
      (some ((bytes - limiter.available) * 1000 % 2 ^ 64 / max (limiter.maxBytesPerSec / 1024) 1),
        { limiter with available := 0 })

end BandwidthLimiter

/-! ## Contexts and statistics -/

structure ChunkTransferContext where
  chunkId : Bytes
  filePath : DiskPath
  totalSize : Nat := 0
  downloadedSize : Nat := 0
  isResume : Bool
  stopFlag : Bool := false

def contextChunkSize : Nat := 16 * 1024 * 1024

structure TransferStats where
  totalDownloads : Nat := 0
  totalUploads : Nat := 0
  failedDownloads : Nat := 0
  failedUploads : Nat := 0
  totalBytesDownloaded : Nat := 0
  totalBytesUploaded : Nat := 0

structure StrictWeakOrder (peers : List PeerNode) (lt : PeerNode → PeerNode → Bool) : Prop where
  asymm : ∀ a ∈ peers, ∀ b ∈ peers, lt a b = true → lt b a = false
  cotrans : ∀ a ∈ peers, ∀ b ∈ peers, ∀ c ∈ peers, lt a c = true → lt a b = true ∨ lt b c = true

structure PeerSort where
  apply : (PeerNode → PeerNode → Bool) → List PeerNode → List PeerNode
  perm : ∀ lt peers, (apply lt peers).Perm peers
  sorted : ∀ lt peers, StrictWeakOrder peers lt →
    (apply lt peers).Pairwise fun a b => lt b a = false

theorem StrictWeakOrder.mono {peers peers' : List PeerNode} {lt : PeerNode → PeerNode → Bool}
    (h : StrictWeakOrder peers lt) (hsub : ∀ a ∈ peers', a ∈ peers) : StrictWeakOrder peers' lt :=
  ⟨fun a ha b hb => h.asymm a (hsub a ha) b (hsub b hb),
    fun a ha b hb c hc => h.cotrans a (hsub a ha) b (hsub b hb) c (hsub c hc)⟩

theorem StrictWeakOrder.pairwise_orderedInsert {peer : PeerNode} {peers : List PeerNode}
    {lt : PeerNode → PeerNode → Bool} (h : StrictWeakOrder (peer :: peers) lt)
    (hsorted : peers.Pairwise fun a b => lt b a = false) :
    (peers.orderedInsert (fun a b => lt b a = false) peer).Pairwise fun a b => lt b a = false := by
  induction peers with
  | nil => exact List.pairwise_singleton _ peer
  | cons first peers ih =>
      obtain ⟨hfirst, hrest⟩ := List.pairwise_cons.mp hsorted
      rw [List.orderedInsert_cons]
      by_cases hle : lt first peer = false
      · rw [if_pos hle, List.pairwise_cons]
        refine ⟨fun b hb => ?_, hsorted⟩
        rcases List.mem_cons.mp hb with rfl | hmem
        · exact hle
        · by_contra hlt
          rcases h.cotrans b (by simp [hmem]) first (by simp) peer (by simp)
            (by simpa using hlt) with
            hbf | hfp
          · rw [hfirst b hmem] at hbf
            cases hbf
          · rw [hle] at hfp
            cases hfp
      · have hlt : lt first peer = true := by simpa using hle
        rw [if_neg hle, List.pairwise_cons]
        refine ⟨fun b hb => ?_, ih (h.mono fun a ha => ?_) hrest⟩
        · rcases (List.mem_orderedInsert _).mp hb with rfl | hmem
          · exact h.asymm first (by simp) b (by simp) hlt
          · exact hfirst b hmem
        · rcases List.mem_cons.mp ha with rfl | hmem
          · exact List.mem_cons_self
          · exact List.mem_cons_of_mem peer (List.mem_cons_of_mem first hmem)

/-- Sorting by insertion, which keeps the order of equal peers. -/
def PeerSort.insertion : PeerSort where
  apply lt peers := peers.insertionSort fun a b => lt b a = false
  perm lt peers := List.perm_insertionSort _ peers
  sorted lt peers h := by
    induction peers with
    | nil => exact List.Pairwise.nil
    | cons peer peers ih =>
        have hsorted := ih (h.mono fun a => List.mem_cons_of_mem peer)
        refine StrictWeakOrder.pairwise_orderedInsert (h.mono fun a ha => ?_) hsorted
        rcases List.mem_cons.mp ha with rfl | hmem
        · exact List.mem_cons_self
        · exact List.mem_cons_of_mem peer ((List.perm_insertionSort _ peers).mem_iff.mp hmem)

structure TransferManager where
  running : Bool
  selectionK : UInt32
  hasNodeDiscovery : Bool
  steady : Nat → Nat
  steadyTicks : Nat
  sort : PeerSort
  rng : Nat → Shuffle
  shuffles : Nat
  stats : TransferStats
  uploadLimiter : BandwidthLimiter
  downloadLimiter : BandwidthLimiter
  activeTransfers : AList (fun _ : Bytes => Nat)
  contexts : List ChunkTransferContext
  savedProgress : AList (fun _ : Bytes => Nat)
  progressDir : Bytes
  progressFiles : FileSystem
  allocates : Nat → Nat → Bool := fun _ _ => true
  reservations : Nat := 0

namespace TransferManager

def getOrCreateContext (t : TransferManager) (chunkId : Bytes) (resume : Bool) :
    Nat × TransferManager :=
  match t.activeTransfers.lookup chunkId with
  | some ctx => (ctx, t)
  | none =>
      let ctx : ChunkTransferContext :=
        { chunkId := chunkId
          filePath := ⟨t.progressDir, chunkId ++ ascii ".tmp"⟩
          isResume := resume }
      (t.contexts.length,
        { t with
          contexts := t.contexts ++ [ctx]
          activeTransfers := t.activeTransfers.insert chunkId t.contexts.length })

def removeTransfer (t : TransferManager) (chunkId : Bytes) : TransferManager :=
  { t with activeTransfers := t.activeTransfers.erase chunkId }

def activeTransferCount (t : TransferManager) : UInt64 :=
  UInt64.ofNat t.activeTransfers.entries.length

def updateContext (t : TransferManager) (ctx : Nat)
    (f : ChunkTransferContext → ChunkTransferContext) : TransferManager :=
  { t with contexts := t.contexts.modify ctx f }

/-- Whether the next `reserve` of so many bytes goes through. -/
def canReserve (t : TransferManager) (bytes : Nat) : Bool := t.allocates t.reservations bytes

/-- `reserve` of a vector; `false` stands for the exception. -/
def reserveBuffer (t : TransferManager) (bytes : Nat) : Bool × TransferManager :=
  (t.canReserve bytes, { t with reservations := t.reservations + 1 })

def isStopped (t : TransferManager) (ctx : Nat) : Bool :=
  t.contexts[ctx]?.any (·.stopFlag)

/-! ## Saved progress -/

def progressPath (t : TransferManager) (chunkId : Bytes) : DiskPath :=
  ⟨t.progressDir, chunkId ++ ascii ".progress"⟩

def saveProgress (t : TransferManager) (chunkId : Bytes) (downloadedBytes : Nat) :
    TransferManager :=
  let (opened, files) := t.progressFiles.write (t.progressPath chunkId)
    (decimal downloadedBytes ++ ascii "\n")
  let t := { t with progressFiles := files }
  if opened then { t with savedProgress := t.savedProgress.insert chunkId downloadedBytes } else t

def loadProgress (t : TransferManager) (chunkId : Bytes) : Option Nat :=
  match t.savedProgress.lookup chunkId with
  | some downloadedBytes => some downloadedBytes
  | none => do
      let content ← t.progressFiles.read (t.progressPath chunkId)
      let downloadedBytes := storedUInt64 content
      if 0 < downloadedBytes then some downloadedBytes else none

def hasProgress (t : TransferManager) (chunkId : Bytes) : Bool :=
  (t.loadProgress chunkId).any (0 < ·)

def cancelTransfer (t : TransferManager) (chunkId : Bytes) : TransferManager :=
  match t.activeTransfers.lookup chunkId with
  | none => t
  | some ctx =>
      let t := t.updateContext ctx fun c => { c with stopFlag := true }
      t.saveProgress chunkId ((t.contexts[ctx]?.map (·.downloadedSize)).getD 0)

/-! ## Peer selection -/

/-- Sum of the rarities of everything the peer holds, modulo `2^32`. -/
def rarityScore (discovery : NodeDiscovery) (peer : PeerNode) : UInt32 :=
  peer.availableChunks.toList.foldl (fun score chunk => score + discovery.getChunkRarity chunk) 0

def selectKPeers (t : TransferManager) (discovery : NodeDiscovery) (candidates : List PeerNode)
    (k : UInt32) (mode : TransferMode) : List PeerNode × TransferManager :=
  if candidates.isEmpty then ([], t)
  else
    let actualK := (min k (UInt32.ofNat candidates.length)).toNat
    match mode with
    | .nearestFirst =>
        ((t.sort.apply (fun a b => a.latencyMs.lt b.latencyMs) candidates).take actualK, t)
    | .fastestFirst =>
        ((t.sort.apply (fun a b => b.throughputMbps.lt a.throughputMbps) candidates).take actualK,
          t)
    | .rarestFirst =>
        if t.hasNodeDiscovery then
          ((t.sort.apply (fun a b => rarityScore discovery a < rarityScore discovery b)
            candidates).take actualK, t)
        else
          (((t.rng t.shuffles).apply candidates).take actualK,
            { t with shuffles := t.shuffles + 1 })

end TransferManager

end ElioP2P.P2P
