import ElioP2P.Library.FileSystem
import ElioP2P.Library.Json
import ElioP2P.Library.Maps
import ElioP2P.Library.Runs

/-!
# The metadata manager

The chunk index of `src/control/metadata.cpp`, which is kept in memory, saved to
a file and loaded from it.  The set of known peers stands beside the index.
-/

namespace ElioP2P.Control

open ElioP2P.Library

structure ChunkIndexEntry where
  chunkId : Bytes := []
  objectKey : Bytes := []
  offset : UInt64 := 0
  size : UInt64 := 0
  hash : Bytes := []
  version : UInt64 := 0
  peerIds : HashSet Bytes := ∅
  lastUpdateTime : UInt64 := 0

structure MetadataManager where
  chunks : AList (fun _ : Bytes => ChunkIndexEntry)
  peers : HashSet Bytes

namespace MetadataManager

def new : MetadataManager := ⟨∅, ∅⟩

/-! ## The operations -/

/-- `chunks[chunk_id]` makes an entry if there is none. -/
def updateChunkLocation (m : MetadataManager) (now : UInt64) (chunkId peerId : Bytes) :
    MetadataManager :=
  let entry := (m.chunks.lookup chunkId).getD {}
  { chunks := m.chunks.insert chunkId
      { entry with peerIds := entry.peerIds.insert peerId, lastUpdateTime := now }
    peers := m.peers.insert peerId }

def removeChunkLocation (m : MetadataManager) (chunkId peerId : Bytes) : MetadataManager :=
  match m.chunks.lookup chunkId with
  | some entry =>
      { m with
        chunks := m.chunks.insert chunkId { entry with peerIds := entry.peerIds.erase peerId } }
  | none => m

def setChunkMetadata (m : MetadataManager) (entry : ChunkIndexEntry) : MetadataManager :=
  { m with chunks := m.chunks.insert entry.chunkId entry }

def removeChunkMetadata (m : MetadataManager) (chunkId : Bytes) : MetadataManager :=
  { m with chunks := m.chunks.erase chunkId }

inductive Op where
  | updateChunkLocation (now : UInt64) (chunkId peerId : Bytes)
  | removeChunkLocation (chunkId peerId : Bytes)
  | setChunkMetadata (entry : ChunkIndexEntry)
  | removeChunkMetadata (chunkId : Bytes)
  | clear

def apply (m : MetadataManager) : Op → MetadataManager
  | .updateChunkLocation now chunkId peerId => m.updateChunkLocation now chunkId peerId
  | .removeChunkLocation chunkId peerId => m.removeChunkLocation chunkId peerId
  | .setChunkMetadata entry => m.setChunkMetadata entry
  | .removeChunkMetadata chunkId => m.removeChunkMetadata chunkId
  | .clear => new

def step (m : MetadataManager) (op : Op) : Option MetadataManager := some (m.apply op)

/-! ## Saving -/

def entryToJson (entry : ChunkIndexEntry) : Json :=
  .object
    [(ascii "chunk_id", .string entry.chunkId),
      (ascii "hash", .string entry.hash),
      (ascii "last_update_time", .unsigned entry.lastUpdateTime),
      (ascii "object_key", .string entry.objectKey),
      (ascii "offset", .unsigned entry.offset),
      (ascii "peer_ids", .array (entry.peerIds.toList.map .string)),
      (ascii "size", .unsigned entry.size),
      (ascii "version", .unsigned entry.version)]

def toJson (m : MetadataManager) : Json :=
  .object [(ascii "chunks", .array (m.chunks.entries.map fun e => entryToJson e.2))]

def saveToFile (text : JsonText) (m : MetadataManager) (path : DiskPath) (fs : FileSystem) :
    Bool × FileSystem :=
  let tmpPath := { path with filename := path.filename ++ ascii ".tmp" }
  match text.dump m.toJson with
  -- The temporary file has been opened, and it stays.
  | none => (false, (fs.write tmpPath []).2)
  | some bytes =>
      let (opened, fs) := fs.write tmpPath bytes
      if opened then
        match fs.rename tmpPath path with
        | some fs => (true, fs)
        | none => (false, fs)
      else (false, fs)

/-! ## Loading -/

/-- The fields of an entry, and its peers as yet unread. -/
def readEntry (item : Json) : Option (ChunkIndexEntry × Json) := do
  let chunkId ← item.value Json.getString (ascii "chunk_id") []
  let objectKey ← item.value Json.getString (ascii "object_key") []
  let offset ← item.value Json.getUInt64 (ascii "offset") 0
  let size ← item.value Json.getUInt64 (ascii "size") 0
  let hash ← item.value Json.getString (ascii "hash") []
  let version ← item.value Json.getUInt64 (ascii "version") 0
  let lastUpdateTime ← item.value Json.getUInt64 (ascii "last_update_time") 0
  let peerIds ← item.value some (ascii "peer_ids") (.array [])
  some ({ chunkId, objectKey, offset, size, hash, version, lastUpdateTime }, peerIds)

/-- Read peers into an entry and into the set of known peers, up to the first
one that is not a string. -/
def loadPeers : List Json → ChunkIndexEntry → HashSet Bytes → Bool × ChunkIndexEntry × HashSet Bytes
  | [], entry, peers => (true, entry, peers)
  | p :: ps, entry, peers =>
      match p.getString with
      | none => (false, entry, peers)
      | some peerId =>
          loadPeers ps { entry with peerIds := entry.peerIds.insert peerId } (peers.insert peerId)

def loadItem (m : MetadataManager) (item : Json) : Bool × MetadataManager :=
  match readEntry item with
  | none => (false, m)
  | some (entry, peerIds) =>
      match loadPeers peerIds.items entry m.peers with
      | (false, _, peers) => (false, { m with peers := peers })
      | (true, entry, peers) =>
          let m := { m with peers := peers }
          if entry.chunkId.isEmpty then (true, m)
          else (true, { m with chunks := m.chunks.insert entry.chunkId entry })

/-- The loop over the items; an exception ends it where it is. -/
def loadItems : List Json → MetadataManager → Bool × MetadataManager
  | [], m => (true, m)
  | item :: items, m =>
      match m.loadItem item with
      | (false, m) => (false, m)
      | (true, m) => loadItems items m

inductive FileState where
  | absent
  | unreadable
  | contents (bytes : Bytes)

def load (text : JsonText) (m : MetadataManager) : FileState → Bool × MetadataManager
  | .absent => (true, m)
  | .unreadable => (false, m)
  | .contents bytes =>
      match text.parse bytes with
      | none => (false, m)
      | some j =>
          match j.at? (ascii "chunks") with
          | none => (false, new)
          | some chunks => loadItems chunks.items new

def loadFromFile (text : JsonText) (m : MetadataManager) (path : DiskPath) (fs : FileSystem) :
    Bool × MetadataManager :=
  load text m (match fs.read path with
    | none => .absent
    | some bytes => .contents bytes)

end MetadataManager

end ElioP2P.Control
