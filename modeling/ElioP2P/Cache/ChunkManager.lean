import ElioP2P.Cache.LRUCache
import ElioP2P.Library.FileSystem
import ElioP2P.Library.Runs
import ElioP2P.Library.Sha256

/-!
# The two-tier chunk store

`ChunkManager` of `src/cache/chunk_manager.cpp`: the LRU cache in front of one
file per chunk, with an in-memory index of the files.  The index is keyed by
the chunk id, the files by a sanitised form of it.

Every public method holds the manager's lock and contains no suspension point,
so each is one state transformer.  Those that reach an eviction loop return
`none` when its fuel runs out.
-/

namespace ElioP2P.Cache

open ElioP2P.Library

structure CacheConfig where
  memoryCacheSizeMb : Nat := 4096
  diskCachePath : Bytes := ascii "/var/cache/eliop2p"
  evictionWeightTime : ℚ := 1
  evictionWeightReplica : ℚ := 1 / 2
  evictionWeightHeat : ℚ := 3 / 10
  hotThreshold : UInt32 := 100
  warmThreshold : UInt32 := 10

structure ChunkMetadata where
  chunkId : Bytes
  objectKey : Bytes := []
  offset : Nat := 0
  size : Nat := 0
  hash : Bytes := []
  version : Nat := 0
  isImmutable : Bool := true
  replicaCount : UInt32 := 1
  heatLevel : HeatLevel := .cold
  lastAccessTime : UInt64 := 0
  creationTime : UInt64 := 0

structure ChunkManager where
  memoryCache : LRUCache
  metadata : AList (fun _ : Bytes => ChunkMetadata)
  diskCachePath : Bytes
  diskIndex : AList (fun _ : Bytes => Nat)
  initialized : Bool
  fileSystem : FileSystem

/-! ## File names -/

def isFilenameByte (b : UInt8) : Bool :=
  isAlnum b || b == 46 || b == 95 || b == 45 || b == 35

/-- Map a chunk id to a file name without directory separators; any byte
outside the allowed set becomes an underscore. -/
def sanitizeChunkFilename (chunkId : Bytes) : Bytes :=
  let out := chunkId.map fun b => if isFilenameByte b then b else 95
  if out.isEmpty || out == ascii "." || out == ascii ".." then ascii "_" else out

namespace ChunkManager

def new (float : FloatArith) (config : CacheConfig) (clock : Nat → UInt64)
    (fs : FileSystem) : ChunkManager where
  memoryCache := LRUCache.new
    { float := float
      maxCapacity := config.memoryCacheSizeMb * 1024 * 1024 % 2 ^ 64
      weightTime := config.evictionWeightTime
      weightReplica := config.evictionWeightReplica
      weightHeat := config.evictionWeightHeat
      hotThreshold := config.hotThreshold
      warmThreshold := config.warmThreshold } clock
  metadata := ∅
  diskCachePath := config.diskCachePath
  diskIndex := ∅
  initialized := false
  fileSystem := fs

def chunksDir (s : ChunkManager) : Bytes := joinPath s.diskCachePath (ascii "chunks")

def chunkPath (s : ChunkManager) (chunkId : Bytes) : DiskPath :=
  ⟨s.chunksDir, sanitizeChunkFilename chunkId ++ ascii ".chunk"⟩

/-! ## Disk tier -/

def persistToDisk (s : ChunkManager) (chunkId data : Bytes) : Bool × ChunkManager :=
  if s.diskCachePath.isEmpty then (false, s)
  else
    let (opened, fs) := s.fileSystem.write (s.chunkPath chunkId) data
    (opened, { s with fileSystem := fs })

def loadFromDisk (s : ChunkManager) (chunkId : Bytes) : Option Bytes :=
  if s.diskCachePath.isEmpty then none
  else s.fileSystem.read (s.chunkPath chunkId)

def deleteFromDisk (s : ChunkManager) (chunkId : Bytes) : ChunkManager :=
  if s.diskCachePath.isEmpty then s
  else { s with fileSystem := s.fileSystem.remove (s.chunkPath chunkId) }

/-- Rebuild the index from the directory: every `.chunk` file is entered under
its stem. -/
def initializeDiskCache (s : ChunkManager) : Bool × ChunkManager :=
  if s.diskCachePath.isEmpty then (false, s)
  else
    let chunkFiles := (s.fileSystem.list s.chunksDir).filter
      fun file => (splitExtension file.1).2 == ascii ".chunk"
    let index := chunkFiles.foldl
      (fun index file => index.insert (splitExtension file.1).1 file.2.length) ∅
    (true, { s with diskIndex := index, initialized := true })

/-! ## Public operations -/

/-- `get_chunk`: the fast path, the second look under the exclusive lock, then
the disk index and a promotion through the memory cache. -/
def getChunk (fuel : Nat) (s : ChunkManager) (chunkId : Bytes) :
    Option (Option Chunk × ChunkManager) :=
  let (fast, memory) := s.memoryCache.get chunkId
  match fast with
  | some chunk => some (some chunk, { s with memoryCache := memory })
  | none =>
      let (again, memory) := memory.get chunkId
      let s := { s with memoryCache := memory }
      match again with
      | some chunk => some (some chunk, s)
      | none =>
          if (s.diskIndex.lookup chunkId).isNone then some (none, s)
          else
            match s.loadFromDisk chunkId with
            | none => some (none, { s with diskIndex := s.diskIndex.erase chunkId })
            | some data => do
                let (_, memory) ← s.memoryCache.put fuel chunkId data
                let (chunk, memory) := memory.get chunkId
                some (chunk, { s with memoryCache := memory })

/-- `store_chunk(metadata, data)`.  The result is that of the memory cache;
the chunk is persisted whether or not memory took it. -/
def storeChunkWithMetadata (fuel : Nat) (s : ChunkManager) (metadata : ChunkMetadata)
    (data : Bytes) : Option (Bool × ChunkManager) :=
  if 0 < metadata.size ∧ data.length ≠ metadata.size then some (false, s)
  else do
    let (success, memory) ← s.memoryCache.put fuel metadata.chunkId data
    let s := { s with
      memoryCache := memory
      metadata := s.metadata.insert metadata.chunkId metadata }
    let (persisted, s) := s.persistToDisk metadata.chunkId data
    let s := if persisted then
        { s with diskIndex := s.diskIndex.insert metadata.chunkId data.length }
      else s
    some (success, s)

def freshMetadata (H : Sha256) (now : UInt64) (chunkId data : Bytes) : ChunkMetadata where
  chunkId := chunkId
  hash := H.hex data
  size := data.length
  creationTime := now
  lastAccessTime := now

def storeChunk (H : Sha256) (fuel : Nat) (s : ChunkManager) (chunkId data : Bytes) :
    Option (Bool × ChunkManager) :=
  let (now, memory) := s.memoryCache.currentTime
  { s with memoryCache := memory }.storeChunkWithMetadata fuel
    (freshMetadata H now chunkId data) data

def removeChunk (s : ChunkManager) (chunkId : Bytes) : Bool × ChunkManager :=
  let (fromMemory, memory) := s.memoryCache.remove chunkId
  let fromDiskIndex := (s.diskIndex.lookup chunkId).isSome
  let s := { s with
    memoryCache := memory
    diskIndex := s.diskIndex.erase chunkId }
  let s := s.deleteFromDisk chunkId
  (fromMemory || fromDiskIndex, { s with metadata := s.metadata.erase chunkId })

def hasChunk (s : ChunkManager) (chunkId : Bytes) : Bool :=
  s.memoryCache.contains chunkId || (s.diskIndex.lookup chunkId).isSome

/-- `promote_to_memory` goes straight to the file: the index is not asked. -/
def promoteToMemory (fuel : Nat) (s : ChunkManager) (chunkId : Bytes) :
    Option (Bool × ChunkManager) :=
  match s.loadFromDisk chunkId with
  | none => some (false, s)
  | some data => do
      let (success, memory) ← s.memoryCache.put fuel chunkId data
      some (success, { s with memoryCache := memory })

def demoteToDisk (s : ChunkManager) (chunkId : Bytes) : Bool × ChunkManager :=
  let (found, memory) := s.memoryCache.get chunkId
  let s := { s with memoryCache := memory }
  match found with
  | none => (false, s)
  | some chunk =>
      let (success, s) := s.persistToDisk chunkId chunk.data
      if success then
        (true, { s with
          memoryCache := (s.memoryCache.remove chunkId).2
          diskIndex := s.diskIndex.insert chunkId chunk.size })
      else (false, s)

def triggerEviction (fuel : Nat) (s : ChunkManager) : Option ChunkManager := do
  let memory ← s.memoryCache.maybeEvict fuel
  some { s with memoryCache := memory }

def updateMetadata (s : ChunkManager) (metadata : ChunkMetadata) : ChunkManager :=
  { s with
    metadata := s.metadata.insert metadata.chunkId metadata
    memoryCache := s.memoryCache.updateChunkMetadata metadata.chunkId
      metadata.replicaCount metadata.heatLevel }

/-- `"<object_key>_<offset / chunk_size>"` -/
def computeChunkId (objectKey : Bytes) (offset chunkSize : Nat) : Bytes :=
  objectKey ++ ascii "_" ++ decimal (offset / chunkSize)

/-! ## Runs -/

inductive Op where
  | store (chunkId data : Bytes)
  | storeWithMetadata (metadata : ChunkMetadata) (data : Bytes)
  | get (chunkId : Bytes)
  | remove (chunkId : Bytes)
  | promote (chunkId : Bytes)
  | demote (chunkId : Bytes)
  | evict
  | updateMetadata (metadata : ChunkMetadata)
  | openDisk

def apply (H : Sha256) (fuel : Nat) (s : ChunkManager) : Op → Option ChunkManager
  | .store chunkId data => (s.storeChunk H fuel chunkId data).map Prod.snd
  | .storeWithMetadata metadata data =>
      (s.storeChunkWithMetadata fuel metadata data).map Prod.snd
  | .get chunkId => (s.getChunk fuel chunkId).map Prod.snd
  | .remove chunkId => some (s.removeChunk chunkId).2
  | .promote chunkId => (s.promoteToMemory fuel chunkId).map Prod.snd
  | .demote chunkId => some (s.demoteToDisk chunkId).2
  | .evict => s.triggerEviction fuel
  | .updateMetadata metadata => some (s.updateMetadata metadata)
  | .openDisk => some s.initializeDiskCache.2

def run (H : Sha256) (fuel : Nat) : ChunkManager → List Op → Option ChunkManager :=
  runSteps (apply H fuel)

end ChunkManager

end ElioP2P.Cache
