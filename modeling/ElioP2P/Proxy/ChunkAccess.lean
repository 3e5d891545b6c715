import ElioP2P.P2P.Transfer

/-!
# Chunked access to objects

The suspending half of `src/proxy/request_handler.cpp`: `get_object_info` and
`fetch_chunk`, which go from the local cache over the peers to the origin, and
the program of a node as `main.cpp` wires it.
-/

namespace ElioP2P.Proxy

open ElioP2P.Library ElioP2P.Cache ElioP2P.P2P

/-! ## Waiting -/

/-- Other threads may run before the call. -/
def lock (access : Access) : Proc Unit :=
  Coroutine.ask (S := nodeSignature) (.lock access)

def headObject (bucket key : Bytes) : Proc (Option ObjectMetadata) :=
  Coroutine.ask (S := nodeSignature) (.headObject bucket key)

def getObject (bucket key : Bytes) (offset length : Nat) : Proc (Option Bytes) :=
  Coroutine.ask (S := nodeSignature) (.getObject bucket key offset length)

section Access

variable (H : Sha256) (fuel : Nat) (handler : RequestHandler)

/-! ## The cache -/

def provideFromCache (chunkId : Bytes) (s : Node) : Option (Option Bytes × Node) := do
  let (chunk, cache) ← s.cache.getChunk fuel chunkId
  some (chunk.map Chunk.data, { s with cache := cache })

def consumeIntoCache (chunkId data : Bytes) (s : Node) : Option (Bool × Node) := do
  let (stored, cache) ← s.cache.storeChunk H fuel chunkId data
  some (stored, { s with cache := cache })

def loadChunk (chunkId : Bytes) : Proc (Option Bytes) := do
  lock (.load chunkId)
  Coroutine.atomically (S := nodeSignature) (provideFromCache fuel chunkId)

def storeChunk (chunkId data : Bytes) : Proc Bool := do
  lock (.store chunkId data)
  Coroutine.atomically (S := nodeSignature) (consumeIntoCache H fuel chunkId data)

def cachedChunk (chunkId : Bytes) : Proc (Option Bytes) :=
  if handler.hasCacheManager then loadChunk fuel chunkId else pure none

def cacheChunk (chunkId data : Bytes) : Proc Unit := do
  if handler.hasCacheManager then
    let _ ← storeChunk H fuel chunkId data

def announceLocalChunk (chunkId : Bytes) : Proc Unit := do
  if handler.hasTransferManager then
    lock (.announce chunkId)
    Coroutine.atomically (S := nodeSignature) fun s : Node =>
      some ((), { s with
        discovery :=
          if s.transfer.hasNodeDiscovery then s.discovery.announceChunk chunkId
          else s.discovery })

/-- `download_chunk`, if the handler may use peers; an empty chunk counts as
nothing. -/
def downloadFromPeers (request : TransferRequest) : Proc (Option Bytes) := do
  if handler.enableP2pFallback && handler.hasTransferManager then
    let data ← downloadChunk H request
    pure (data.filter fun data => !data.isEmpty)
  else pure none

/-! ## Object metadata -/

def metaRequest (info : CacheKeyInfo) : TransferRequest where
  chunkId := metaKey info.fullObjectKey
  objectKey := info.fullObjectKey
  kValue := 3

def publishMeta (info : CacheKeyInfo) (obj : ObjectInfo) : Proc Unit := do
  if handler.hasCacheManager then
    cacheChunk H fuel handler (metaKey info.fullObjectKey) (serializeMeta obj)
    announceLocalChunk handler (metaKey info.fullObjectKey)

/-- The HEAD request, whose answer becomes the first `#meta` chunk. -/
def headObjectInfo (info : CacheKeyInfo) : Proc (Option ObjectInfo) := do
  if !handler.hasStorageClient then pure none
  else
    match ← headObject info.bucket info.objectKey with
    | none => pure none
    | some head =>
        let obj : ObjectInfo := { size := head.size, etag := head.etag }
        publishMeta H fuel handler info obj
        pure (some obj)

def getObjectInfo (info : CacheKeyInfo) : Proc (Option ObjectInfo) := do
  let cached ← cachedChunk fuel handler (metaKey info.fullObjectKey)
  match cached.bind parseMeta with
  | some obj => pure (some obj)
  | none =>
      let data ← downloadFromPeers H handler (metaRequest info)
      match data.bind fun data => (parseMeta data).map fun obj => (data, obj) with
      | some (data, obj) =>
          cacheChunk H fuel handler (metaKey info.fullObjectKey) data
          pure (some obj)
      | none => headObjectInfo H fuel handler info

/-! ## Chunks -/

def resizeHashes (hashes : List Bytes) (chunkIndex : Nat) : List Bytes :=
  hashes ++ List.replicate (chunkIndex + 1 - hashes.length) []

/-- Enter the hash of a chunk into the `#meta` chunk, unless one is there.  What
other threads store there between the two calls is overwritten. -/
def enterHash (info : CacheKeyInfo) (obj : ObjectInfo) (chunkIndex : Nat) (hash : Bytes)
    (s : Node) : Option (Bool × Node) := do
  let (cached, cache) ← s.cache.getChunk fuel (metaKey info.fullObjectKey)
  let updated := ((cached.map Chunk.data).bind parseMeta).getD obj
  let hashes := resizeHashes updated.chunkHashes chunkIndex
  if (hashes.getD chunkIndex []).isEmpty then
    let (_, cache) ← cache.storeChunk H fuel (metaKey info.fullObjectKey)
      (serializeMeta { updated with chunkHashes := hashes.set chunkIndex hash })
    some (true, { s with
      cache := cache
      anchors := s.anchors ++ [⟨info.fullObjectKey, chunkIndex, hash⟩] })
  else some (false, { s with cache := cache })

/-- What `fetch_chunk` does under `meta_mutex`, but for the announcement. -/
def recordHash (info : CacheKeyInfo) (obj : ObjectInfo) (chunkIndex : Nat) (hash : Bytes) :
    Proc Unit := do
  lock (.record info.fullObjectKey obj chunkIndex hash)
  let entered ← Coroutine.atomically (S := nodeSignature)
    (enterHash H fuel info obj chunkIndex hash)
  if entered then announceLocalChunk handler (metaKey info.fullObjectKey)

def chunkIdOf (info : CacheKeyInfo) (chunkIndex : Nat) : Bytes :=
  ChunkManager.computeChunkId info.fullObjectKey (chunkIndex * handler.chunkSize)
    handler.chunkSize

def wantedSize (obj : ObjectInfo) (chunkIndex : Nat) : Nat :=
  min handler.chunkSize (obj.size - chunkIndex * handler.chunkSize)

def chunkRequest (info : CacheKeyInfo) (obj : ObjectInfo) (chunkIndex : Nat) :
    TransferRequest where
  chunkId := chunkIdOf handler info chunkIndex
  objectKey := info.fullObjectKey
  expectedSize := wantedSize handler obj chunkIndex
  kValue := 3
  expectedSha256 := obj.chunkHashes.getD chunkIndex []

def holdChunk (chunkIndex : Nat) (data : Bytes) (source : ChunkSource) : Proc Unit :=
  Coroutine.amend (S := nodeSignature) fun frame : Option RequestFrame =>
    frame.map fun f => { f with held := some ⟨chunkIndex, data, source⟩ }

def keepFromStorage (info : CacheKeyInfo) (obj : ObjectInfo) (chunkIndex : Nat) (data : Bytes) :
    Proc Unit := do
  if handler.hasCacheManager then
    cacheChunk H fuel handler (chunkIdOf handler info chunkIndex) data
    recordHash H fuel handler info obj chunkIndex (H.hex data)

/-- The range GET for exactly one chunk. -/
def fetchFromStorage (info : CacheKeyInfo) (obj : ObjectInfo) (chunkIndex : Nat) :
    Proc (Option Bytes × ChunkSource) := do
  if !handler.hasStorageClient then pure (none, .storage)
  else
    match ← getObject info.bucket info.objectKey (chunkIndex * handler.chunkSize)
        (wantedSize handler obj chunkIndex) with
    | none => pure (none, .storage)
    | some data =>
        holdChunk chunkIndex data .storage
        keepFromStorage H fuel handler info obj chunkIndex data
        announceLocalChunk handler (chunkIdOf handler info chunkIndex)
        pure (some data, .storage)

/-- Local cache, then peers, then the origin. -/
def fetchChunk (info : CacheKeyInfo) (obj : ObjectInfo) (chunkIndex : Nat) :
    Proc (Option Bytes × ChunkSource) := do
  match ← cachedChunk fuel handler (chunkIdOf handler info chunkIndex) with
  | some data => pure (some data, .cache)
  | none =>
      match ← downloadFromPeers H handler (chunkRequest handler info obj chunkIndex) with
      | some data =>
          holdChunk chunkIndex data .p2p
          cacheChunk H fuel handler (chunkIdOf handler info chunkIndex) data
          announceLocalChunk handler (chunkIdOf handler info chunkIndex)
          pure (some data, .p2p)
      | none => fetchFromStorage H fuel handler info obj chunkIndex

def handleRequest (request : HttpRequest) : Proc Handled :=
  handleRequestWith handler.allowedBucket handler.chunkSize
    (fun frame => Coroutine.reveal (S := nodeSignature) (some frame))
    (getObjectInfo H fuel handler) (fetchChunk H fuel handler) request

/-! ## The node -/

/-- What a task does, with the chunk server's callbacks on the cache. -/
def nodeEntry : Job → Proc JobResult
  | .request request => do pure (.response (← handleRequest H fuel handler request))
  | .downloadFromPeer ctx peer expectedSha256 => do
      pure (.peerDownload (← downloadFromPeer H ctx peer expectedSha256))
  | .downloadChunk request => do pure (.chunk (← downloadChunk H request))
  | .uploadChunk chunkId data peer => do pure (.uploaded (← uploadChunk H chunkId data peer))
  | .chunkConnection => do
      handleChunkRequest (loadChunk fuel) (storeChunk H fuel) H
      pure .ended
  | .cancelTransfer chunkId => do
      onTransfer fun t => ((), t.cancelTransfer chunkId)
      pure .ended
  | .discovery op => do
      Coroutine.atomically (S := nodeSignature) fun s : Node =>
        some ((), { s with discovery := s.discovery.apply op })
      pure .ended

def nodeProgram : Program nodeSignature where
  blank := none
  entry := nodeEntry H fuel handler

end Access

end ElioP2P.Proxy
