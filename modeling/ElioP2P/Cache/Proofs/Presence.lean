import ElioP2P.Cache.Proofs.Retrieval

/-!
# Calls that leave a chunk in place

With a disk tier every stored chunk has a file, and evictions empty memory only,
so nothing but a removal takes a chunk away.  Without one a chunk is lost with
the first eviction that meets it.
-/

namespace ElioP2P.Cache

open ElioP2P.Library

namespace LRUCache

/-- Putting `size` bytes under `key` evicts nothing: they are refused, they
replace what the key has, or they fit below the eviction threshold. -/
def HasRoom (m : LRUCache) (key : Bytes) (size : Nat) : Prop :=
  m.config.maxCapacity < size ∨ m.contains key = true ∨
    (m.currentSize + size ≤ m.config.maxCapacity ∧
      usageAbove m.config (m.currentSize + size) evictionThreshold = false)

instance (m : LRUCache) (key : Bytes) (size : Nat) : Decidable (m.HasRoom key size) :=
  inferInstanceAs (Decidable (_ ∨ _))

end LRUCache

namespace ChunkManager

def OnDisk (s : ChunkManager) (id : Bytes) : Prop :=
  (s.diskIndex.lookup id).isSome = true ∧ (s.loadFromDisk id).isSome = true

instance (s : ChunkManager) (id : Bytes) : Decidable (s.OnDisk id) :=
  inferInstanceAs (Decidable (_ ∧ _))

def Kept (s : ChunkManager) (id : Bytes) : Prop :=
  if s.diskCachePath = [] then s.memoryCache.contains id = true else s.OnDisk id

/-- The call does not take `id` away.  With a disk tier it must not remove the
file, nor rebuild the index when that would lose `id`; without one it must
neither remove the chunk nor evict. -/
def Spares (id : Bytes) (s : ChunkManager) : Op → Prop
  | .store key data => s.diskCachePath = [] → key = id ∨ s.memoryCache.HasRoom key data.length
  | .storeWithMetadata metadata data => s.diskCachePath = [] →
      metadata.chunkId = id ∨ s.memoryCache.HasRoom metadata.chunkId data.length
  | .remove key => if s.diskCachePath = [] then key ≠ id else ¬ SameFile id key
  | .evict => s.diskCachePath = [] →
      LRUCache.usageAbove s.memoryCache.config s.memoryCache.currentSize
        LRUCache.evictionThreshold = false
  | .openDisk => s.diskCachePath ≠ [] → sanitizeChunkFilename id = id
  | .get _ | .promote _ | .demote _ | .updateMetadata _ => True

theorem Kept.memory {s : ChunkManager} {id : Bytes} (h : s.Kept id)
    (hpath : s.diskCachePath = []) : s.memoryCache.contains id = true := by
  rwa [Kept, if_pos hpath] at h

theorem onDisk_of_insert_self {s s' : ChunkManager} {id data : Bytes}
    (hindex : s'.diskIndex = s.diskIndex.insert id data.length)
    (hload : s'.loadFromDisk id = if SameFile id id then some data else s.loadFromDisk id) :
    s'.OnDisk id := by
  constructor
  · rw [hindex, AList.lookup_insert]
    rfl
  · rw [hload, if_pos (show SameFile id id from rfl)]
    rfl

theorem onDisk_stored {H : Sha256} {fuel : Nat} {s s' : ChunkManager} {id data : Bytes}
    {ok : Bool} (hs : s.fileSystem.Faultless) (hpath : s.diskCachePath ≠ [])
    (hstore : s.storeChunk H fuel id data = some (ok, s')) : s'.OnDisk id := by
  rw [storeChunk_eq] at hstore
  have hs' : { s with memoryCache := s.memoryCache.currentTime.2 }.fileSystem.Faultless := hs
  obtain ⟨hindex, hload⟩ := disk_store hs' hpath hstore (sizeOk_freshMetadata H _ id data)
  exact onDisk_of_insert_self hindex (hload id)

end ChunkManager

end ElioP2P.Cache
