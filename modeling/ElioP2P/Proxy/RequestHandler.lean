import ElioP2P.Library.Bytes
import Mathlib.Data.List.AList

/-!
# Serving an object chunk by chunk

The request side of `src/proxy/request_handler.cpp`: parsing the path and the
Range header, the line format of the `#meta` chunk, and `handle_request`.  The
two lookups it awaits, the object's size and its chunks, are parameters here in
an arbitrary monad.
-/

namespace ElioP2P.Proxy

open ElioP2P.Library

/-! ## HTTP messages -/

abbrev Headers := AList fun _ : Bytes => Bytes

structure HttpRequest where
  method : Bytes
  path : Bytes
  queryString : Bytes := []
  headers : Headers := ∅
  deriving DecidableEq

namespace HttpRequest

/-- The header under the given name, else under its lower-case form. -/
def findHeader (request : HttpRequest) (name : Bytes) : Option Bytes :=
  request.headers.lookup name <|> request.headers.lookup (name.map toLower)

def getHeader (request : HttpRequest) (name : Bytes) : Bytes :=
  (request.findHeader name).getD []

def hasHeader (request : HttpRequest) (name : Bytes) : Bool :=
  (request.findHeader name).isSome

end HttpRequest

structure HttpResponse where
  statusCode : Nat := 200
  statusMessage : Bytes := ascii "OK"
  headers : Headers := ∅
  body : Bytes := []

namespace HttpResponse

def setHeader (response : HttpResponse) (name value : Bytes) : HttpResponse :=
  { response with headers := response.headers.insert name value }

def getHeader (response : HttpResponse) (name : Bytes) : Bytes :=
  (response.headers.lookup name).getD []

end HttpResponse

/-! ## Cache keys -/

inductive RequestAuthType where
  | none
  | presignedURL
  | headerSigned
  | nonReusableHeader
  deriving DecidableEq

structure CacheKeyInfo where
  bucket : Bytes
  objectKey : Bytes
  fullObjectKey : Bytes
  presignedUrl : Option Bytes := none
  authHeader : Option Bytes := none
  etag : Option Bytes := none
  queryString : Bytes := []
  authType : RequestAuthType := .none
  deriving DecidableEq

def contains (text needle : Bytes) : Bool := text.tails.any needle.isPrefixOf

def detectAuthType (request : HttpRequest) : RequestAuthType :=
  let query := request.queryString
  if !query.isEmpty && (contains query (ascii "X-Amz-Signature") ||
      contains query (ascii "Signature") || contains query (ascii "AWSAccessKeyId")) then
    .presignedURL
  else
    let hasAuthorization := request.hasHeader (ascii "Authorization")
    let hasAmzDate := request.hasHeader (ascii "x-amz-date")
    if hasAmzDate && !(request.getHeader (ascii "x-amz-date")).isEmpty then .headerSigned
    else if hasAuthorization then .nonReusableHeader
    else .none

def parseCacheKey (request : HttpRequest) : Option CacheKeyInfo :=
  let path := if request.path.head? == some 47 then request.path.tail else request.path
  if path.isEmpty || !path.contains 47 then none
  else
    let bucket := path.takeWhile (· != 47)
    let objectKey := (path.dropWhile (· != 47)).tail
    some
      { bucket := bucket
        objectKey := objectKey
        fullObjectKey := bucket ++ ascii "/" ++ objectKey
        presignedUrl := if request.queryString.isEmpty then none else some request.queryString
        authHeader := request.findHeader (ascii "Authorization")
        etag := request.findHeader (ascii "If-None-Match")
        queryString := request.queryString
        authType := detectAuthType request }

/-! ## The `#meta` chunk -/

structure ObjectInfo where
  size : Nat := 0
  etag : Bytes := []
  chunkHashes : List Bytes := []
  deriving DecidableEq

def serializeMeta (obj : ObjectInfo) : Bytes :=
  decimal obj.size ++ ascii " " ++ obj.etag ++ obj.chunkHashes.flatMap (ascii " " ++ ·)

def parseMeta (content : Bytes) : Option ObjectInfo :=
  (extractUInt64 content).map fun (size, rest) =>
    match extractWords rest with
    | [] => { size := size }
    | etag :: chunkHashes => { size := size, etag := etag, chunkHashes := chunkHashes }

def metaKey (fullObjectKey : Bytes) : Bytes := fullObjectKey ++ ascii "#meta"

/-! ## Ranges -/

structure ByteRange where
  start : Nat := 0
  stop : Nat := 0
  valid : Bool := false
  deriving DecidableEq

def parseRangeSpec (startStr endStr : Bytes) (objectSize : Nat) : ByteRange :=
  if startStr.isEmpty then
    match stoull endStr with
    | none => {}
    | some suffix =>
        if suffix = 0 then {}
        else
          { start := objectSize - min suffix objectSize
            stop := objectSize - 1
            valid := true }
  else
    match stoull startStr with
    | none => {}
    | some start =>
        let stop := if endStr.isEmpty then some (objectSize - 1)
          else (stoull endStr).map fun n => min n (objectSize - 1)
        match stop with
        | none => { start := start }
        | some stop =>
            { start := start
              stop := stop
              valid := !(objectSize ≤ start || stop < start) }

/-- Only the first of several ranges is looked at. -/
def parseRangeHeader (header : Bytes) (objectSize : Nat) : ByteRange :=
  if objectSize = 0 || !(ascii "bytes=").isPrefixOf header then {}
  else
    let spec := (header.drop 6).takeWhile (· != 44)
    if !spec.contains 45 then {}
    else parseRangeSpec (spec.takeWhile (· != 45)) (spec.dropWhile (· != 45)).tail objectSize

/-! ## Assembling a body -/

inductive ChunkSource where
  | cache
  | p2p
  | storage
  deriving DecidableEq

def ChunkSource.label : ChunkSource → Bytes
  | .cache => ascii "CACHE"
  | .p2p => ascii "P2P"
  | .storage => ascii "STORAGE"

structure FetchedChunk where
  index : Nat
  data : Bytes
  source : ChunkSource
  deriving DecidableEq

/-- The accumulators of the assembly loop.  `fetched` keeps what the body was
made from, and `outOfBounds` says that an iterator ran past the end of a
chunk. -/
structure Assembly where
  body : Bytes := []
  xCache : Bytes := ascii "HIT"
  chunkSources : Bytes := []
  fetched : List FetchedChunk := []
  outOfBounds : Bool := false
  deriving DecidableEq

def Assembly.add (a : Assembly) (chunkSize : Nat) (range : ByteRange) (chunk : FetchedChunk) :
    Assembly :=
  let firstChunk := range.start / chunkSize
  let lastChunk := range.stop / chunkSize
  let sliceBegin := if chunk.index = firstChunk then range.start % chunkSize else 0
  let sliceEnd := if chunk.index = lastChunk then range.stop % chunkSize + 1
    else chunk.data.length
  let skipped := decide (sliceEnd ≤ sliceBegin)
  { body := if skipped then a.body else a.body ++ (chunk.data.take sliceEnd).drop sliceBegin
    xCache := match chunk.source with
      | .cache => a.xCache
      | .p2p => ascii "P2P"
      | .storage => if a.xCache = ascii "HIT" then ascii "MISS" else a.xCache
    chunkSources := a.chunkSources ++ (if firstChunk < chunk.index then ascii "," else []) ++
      decimal chunk.index ++ ascii ":" ++ chunk.source.label
    fetched := a.fetched ++ [chunk]
    outOfBounds := a.outOfBounds || (!skipped && decide (chunk.data.length < sliceEnd)) }

/-- The local variables of a `handle_request` that waits for a chunk.  `held` is what
`fetch_chunk` has got and not returned yet. -/
structure RequestFrame where
  info : CacheKeyInfo
  obj : ObjectInfo
  chunkIndex : Nat
  assembly : Assembly
  held : Option FetchedChunk
  deriving DecidableEq

def RequestFrame.chunks (frame : RequestFrame) : List FetchedChunk :=
  frame.assembly.fetched ++ frame.held.toList

structure Handled where
  response : HttpResponse
  fetched : List FetchedChunk := []
  outOfBounds : Bool := false

section HandleRequest

variable {m : Type → Type} [Monad m]

/-- `for (idx = first_chunk; idx <= last_chunk; ++idx)`, with the number of
rounds left; `none` once a chunk could not be fetched. -/
def assembleChunks (chunkSize : Nat) (range : ByteRange) (publish : Nat → Assembly → m Unit)
    (fetchChunk : Nat → m (Option Bytes × ChunkSource)) :
    Nat → Nat → Assembly → m (Option Assembly)
  | 0, _, a => pure (some a)
  | rounds + 1, idx, a => do
      publish idx a
      let (data, source) ← fetchChunk idx
      match data with
      | none => pure none
      | some data =>
          assembleChunks chunkSize range publish fetchChunk rounds (idx + 1)
            (a.add chunkSize range ⟨idx, data, source⟩)

def textResponse (statusCode : Nat) (statusMessage text : Bytes) : HttpResponse :=
  let response : HttpResponse :=
    { statusCode := statusCode, statusMessage := statusMessage, body := text }
  response.setHeader (ascii "Content-Type") (ascii "text/plain")

def methodNotAllowed (method : Bytes) : HttpResponse :=
  textResponse 405 (ascii "Method Not Allowed")
    (ascii "Method " ++ method ++ ascii " not supported")

def badRequest : HttpResponse :=
  textResponse 400 (ascii "Bad Request")
    (ascii "Invalid request: could not parse bucket/key from path")

def forbidden (bucket : Bytes) : HttpResponse :=
  textResponse 403 (ascii "Forbidden") (ascii "Bucket not allowed: " ++ bucket)

def notFound (fullObjectKey : Bytes) : HttpResponse :=
  textResponse 404 (ascii "Not Found") (ascii "Object not found: " ++ fullObjectKey)

def badGateway : HttpResponse :=
  textResponse 502 (ascii "Bad Gateway") (ascii "Failed to fetch object data")

def HttpResponse.setETag (response : HttpResponse) (obj : ObjectInfo) : HttpResponse :=
  if obj.etag.isEmpty then response else response.setHeader (ascii "ETag") obj.etag

def contentRange (range : ByteRange) (objectSize : Nat) : Bytes :=
  ascii "bytes " ++ decimal range.start ++ ascii "-" ++ decimal range.stop ++ ascii "/" ++
    decimal objectSize

def chunkResponse (isRange : Bool) (range : ByteRange) (obj : ObjectInfo) (a : Assembly) :
    HttpResponse :=
  let response : HttpResponse := { body := a.body }
  let response := if isRange then
      { response with
        statusCode := 206
        statusMessage := ascii "Partial Content" }.setHeader (ascii "Content-Range")
          (contentRange range obj.size)
    else response
  ((((response.setHeader (ascii "Content-Type") (ascii "application/octet-stream")).setHeader
    (ascii "Accept-Ranges") (ascii "bytes")).setHeader
    (ascii "Content-Length") (decimal a.body.length)).setHeader
    (ascii "X-Cache") a.xCache).setHeader
    (ascii "X-Chunk-Sources") a.chunkSources |>.setETag obj

def requestedRange (request : HttpRequest) (objectSize : Nat) : ByteRange :=
  if request.hasHeader (ascii "Range") then
    parseRangeHeader (request.getHeader (ascii "Range")) objectSize
  else { start := 0, stop := objectSize - 1, valid := 0 < objectSize }

def rangeNotSatisfiable (obj : ObjectInfo) : HttpResponse :=
  let response : HttpResponse :=
    { statusCode := 416, statusMessage := ascii "Range Not Satisfiable" }
  response.setHeader (ascii "Content-Range") (ascii "bytes */" ++ decimal obj.size)

def emptyObject : HttpResponse :=
  HttpResponse.setHeader {} (ascii "Content-Length") (ascii "0")

def headResponse (obj : ObjectInfo) : HttpResponse :=
  ((HttpResponse.setHeader {} (ascii "Content-Length") (decimal obj.size)).setHeader
    (ascii "Accept-Ranges") (ascii "bytes")).setETag obj

def serveObject (chunkSize : Nat) (publish : RequestFrame → m Unit)
    (fetchChunk : CacheKeyInfo → ObjectInfo → Nat → m (Option Bytes × ChunkSource))
    (request : HttpRequest) (info : CacheKeyInfo) (obj : ObjectInfo) : m Handled :=
  let isRange := request.hasHeader (ascii "Range")
  let range := requestedRange request obj.size
  if isRange && !range.valid then
    pure { response := rangeNotSatisfiable obj }
  else if obj.size = 0 then
    pure { response := emptyObject }
  else do
    let firstChunk := range.start / chunkSize
    let lastChunk := range.stop / chunkSize
    let assembled ← assembleChunks chunkSize range
      (fun idx a => publish ⟨info, obj, idx, a, none⟩) (fetchChunk info obj)
      (lastChunk + 1 - firstChunk) firstChunk {}
    match assembled with
    | none => pure { response := badGateway }
    | some a =>
        pure
          { response := chunkResponse isRange range obj a
            fetched := a.fetched
            outOfBounds := a.outOfBounds }

/-- `handle_request`, over the two lookups it awaits. -/
def handleRequestWith (allowedBucket : Bytes) (chunkSize : Nat)
    (publish : RequestFrame → m Unit)
    (getObjectInfo : CacheKeyInfo → m (Option ObjectInfo))
    (fetchChunk : CacheKeyInfo → ObjectInfo → Nat → m (Option Bytes × ChunkSource))
    (request : HttpRequest) : m Handled :=
  let isHead := request.method == ascii "HEAD"
  if request.method != ascii "GET" && !isHead then
    pure { response := methodNotAllowed request.method }
  else
    match parseCacheKey request with
    | none => pure { response := badRequest }
    | some info =>
        if !allowedBucket.isEmpty && info.bucket != allowedBucket then
          pure { response := forbidden info.bucket }
        else do
          let obj ← getObjectInfo info
          match obj with
          | none => pure { response := notFound info.fullObjectKey }
          | some obj =>
              if isHead then pure { response := headResponse obj }
              else serveObject chunkSize publish fetchChunk request info obj

end HandleRequest

end ElioP2P.Proxy
