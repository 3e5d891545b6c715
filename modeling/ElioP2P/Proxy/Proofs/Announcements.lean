import ElioP2P.Cache.Proofs.Presence
import ElioP2P.P2P.Proofs.TransferWrites
import ElioP2P.Proxy.Proofs.HashList

/-!
# Announced chunks

A node announces a chunk right after it has stored it, whatever the store
returned, and withdraws no announcement when the cache drops a chunk.  This
module says what has to be kept out of a run so that every chunk the node is
listed for can be read from it.
-/

namespace ElioP2P.P2P.NodeDiscovery

open ElioP2P.Library

/-! ## The locations of the local node -/

structure OwnShrinks (s s' : NodeDiscovery) : Prop where
  localNodeId : s'.localNodeId = s.localNodeId
  locates : ∀ chunk, s'.Locates chunk s.localNodeId → s.Locates chunk s.localNodeId

theorem OwnShrinks.trans {s t u : NodeDiscovery} (hst : OwnShrinks s t) (htu : OwnShrinks t u) :
    OwnShrinks s u := by
  refine ⟨htu.localNodeId.trans hst.localNodeId, fun chunk hlocated => hst.locates chunk ?_⟩
  have htu' := htu.locates chunk
  rw [hst.localNodeId] at htu'
  exact htu' hlocated

end ElioP2P.P2P.NodeDiscovery

namespace ElioP2P.Proxy

open ElioP2P.Library ElioP2P.Library.Coroutine ElioP2P.Cache ElioP2P.Cache.ChunkManager
open ElioP2P.P2P

/-! ## Runs of a node -/

def Announced (s : Node) (chunkId : Bytes) : Prop :=
  s.discovery.Locates chunkId s.discovery.localNodeId

instance (s : Node) (chunkId : Bytes) : Decidable (Announced s chunkId) :=
  inferInstanceAs (Decidable (s.discovery.Locates _ _))

def Truthful (s : Node) : Prop :=
  ∀ chunkId, Announced s chunkId →
    ∃ fuel chunk cache, s.cache.getChunk fuel chunkId = some (some chunk, cache)

/-- A step of one of the node's tasks, or a call on its chunk manager from
outside of them, such as a removal or an eviction. -/
inductive NodeEvent where
  | task (action : Action nodeSignature)
  | cache (op : ChunkManager.Op)

/-- What a running node is asked to do.  It was registered before, and announces
chunks from its own requests only. -/
def Serving : Job → Prop
  | .discovery (.register _ _) | .discovery .unregister | .discovery (.announce _) => False
  | _ => True

instance : ∀ job, Decidable (Serving job)
  | .discovery (.register _ _) | .discovery .unregister | .discovery (.announce _) =>
      inferInstanceAs (Decidable False)
  | .discovery (.addPeer _) | .discovery (.removePeer _) | .discovery (.removeAnnouncement _)
  | .discovery .cleanup | .discovery (.gossip _) | .request _ | .downloadFromPeer _ _ _
  | .downloadChunk _ | .uploadChunk _ _ _ | .chunkConnection | .cancelTransfer _ =>
      inferInstanceAs (Decidable True)

def NodeEvent.Serves : NodeEvent → Prop
  | .task (.start job) => Serving job
  | .task (.resume _ _) | .cache _ => True

section Announcements

variable (H : Sha256) (fuel : Nat) (handler : RequestHandler)

def nodeStep (sys : System nodeSignature) : NodeEvent → Option (System nodeSignature)
  | .task action => (nodeProgram H fuel handler).step sys action
  | .cache op => (sys.shared.cache.apply H fuel op).map fun cache =>
      { sys with shared := { sys.shared with cache := cache } }

variable {H fuel handler}

/-- The chunk manager that `initialize` of `main.cpp` sets up. -/
def startedCache (float : FloatArith) (config : CacheConfig) (clock : Nat → UInt64)
    (fs : FileSystem) : ChunkManager :=
  if config.diskCachePath.isEmpty then .new float config clock fs
  else (ChunkManager.new float config clock fs).initializeDiskCache.2

end Announcements

/-! ## A GET and what may follow it -/

def announcingNode (config : CacheConfig) : Node where
  cache := startedCache .ieee config (fun _ => 0) .empty
  discovery := NodeDiscovery.registered (ascii "A")
  transfer := sampleTransfer

def announcingGet : List NodeEvent :=
  (sampleGet wholeRequest (originOf 1 (ascii "e") 0 [1])).map .task

def diskConfig : CacheConfig := { memoryCacheSizeMb := 1, diskCachePath := ascii "/d" }

end ElioP2P.Proxy
