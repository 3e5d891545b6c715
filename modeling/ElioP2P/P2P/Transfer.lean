import ElioP2P.Node

/-!
# Chunk transfer between peers

The coroutines of `src/p2p/transfer.cpp`: framed reads and writes, the download
from one peer, the hedged race of `download_chunk`, the chunk server and the
upload.

Of the exceptions that their `catch` clauses turn into a failure only the one a
peer can provoke is modelled, the allocation of the length it announces.
`download_chunk` has no such clause around the two calls that depend on its
request, `result.reserve` and the removal of the temporary file: what they throw
leaves the coroutine.
-/

namespace ElioP2P.P2P

open ElioP2P.Library ElioP2P.Cache

/-! ## Waiting for the outside world -/

def tcpConnect (address : Bytes) (port : UInt16) : Proc Bool :=
  Coroutine.ask (S := nodeSignature) (.tcpConnect address port)

def streamRead (n : Nat) : Proc { bytes : Bytes // bytes.length ≤ n } :=
  Coroutine.ask (S := nodeSignature) (.streamRead n)

def streamWrite (bytes : Bytes) : Proc (Fin (bytes.length + 1)) :=
  Coroutine.ask (S := nodeSignature) (.streamWrite bytes)

def streamClose : Proc Unit := Coroutine.ask (S := nodeSignature) .streamClose

def reserve (n : Nat) : Proc Bool := Coroutine.ask (S := nodeSignature) (.reserve n)

def sleepFor (ms : Nat) : Proc Unit := Coroutine.ask (S := nodeSignature) (.sleepFor ms)

def onTransfer {α : Type} (f : TransferManager → α × TransferManager) : Proc α :=
  Coroutine.atomically (S := nodeSignature) fun s : Node =>
    let (value, transfer) := f s.transfer
    some (value, { s with transfer := transfer })

def closeWith {α : Type} (result : α) : Proc α := do
  streamClose
  pure result

/-! ## Framing -/

/-- Every round of the loop in `read_exact` that goes on has got at least one
byte, so `n` rounds are enough. -/
def readLoop (n : Nat) : Nat → Bytes → Proc Bytes
  | 0, got => pure got
  | rounds + 1, got =>
      if got.length < n then do
        let r ← streamRead (n - got.length)
        if r.val.isEmpty then pure got else readLoop n rounds (got ++ r.val)
      else pure got

/-- The bytes read; fewer than `n` mean the end of the stream or an error. -/
def readExact (n : Nat) : Proc Bytes := readLoop n n []

def writeLoop : Nat → Bytes → Proc Bool
  | 0, rest => pure rest.isEmpty
  | rounds + 1, rest =>
      if rest.isEmpty then pure true
      else do
        let r ← streamWrite rest
        if r.val = 0 then pure false else writeLoop rounds (rest.drop r.val)

def writeExact (bytes : Bytes) : Proc Bool := writeLoop bytes.length bytes

def writeMessage (header : ChunkMessageHeader) (chunkId : Bytes) : Proc Bool := do
  if ← writeExact (headerToWire header).val then writeExact chunkId else pure false

def readHeader : Proc (Option ChunkMessageHeader) := do
  let bytes ← readExact ChunkMessageHeader.size
  if h : bytes.length = ChunkMessageHeader.size then pure (some (headerFromWire ⟨bytes, h⟩))
  else pure none

/-! ## Bandwidth -/

inductive Direction where
  | upload
  | download

def acquire (direction : Direction) (bytes : Nat) : Proc Unit := do
  let wait ← onTransfer fun t =>
    let now := t.steady t.steadyTicks
    let t := { t with steadyTicks := t.steadyTicks + 1 }
    match direction with
    | .upload =>
        let (wait, limiter) := t.uploadLimiter.acquire now bytes
        (wait, { t with uploadLimiter := limiter })
    | .download =>
        let (wait, limiter) := t.downloadLimiter.acquire now bytes
        (wait, { t with downloadLimiter := limiter })
  match wait with
  | none => pure ()
  | some ms => sleepFor ms

/-- Data is sent and received in slices of this size. -/
def sliceSize : Nat := 256 * 1024

/-! ## One peer -/

def requestHeader (ctx : ChunkTransferContext) : ChunkMessageHeader where
  messageType := ChunkMessageType.request.toUInt32
  chunkIdLength := UInt32.ofNat ctx.chunkId.length
  flags := if ctx.isResume then ChunkMessageHeader.flagResume else 0

/-- The receive loop of `download_from_peer`: the data, or the result to end
with at once.  Each round adds at least one byte, so `total` rounds are
enough. -/
def receiveData (ctx total : Nat) : Nat → Bytes → Proc (Except PeerDownloadResult Bytes)
  | 0, data => pure (.ok data)
  | rounds + 1, data =>
      if data.length < total then do
        let aborted : PeerDownloadResult := { bytesDownloaded := data.length }
        if ← onTransfer fun t => (t.isStopped ctx, t) then closeWith (.error aborted)
        else
          let readSize := min sliceSize (total - data.length)
          acquire .download readSize
          let got ← readExact readSize
          if got.isEmpty then closeWith (.error aborted)
          else receiveData ctx total rounds (data ++ got)
      else pure (.ok data)

def verifyData (H : Sha256) (header : ChunkMessageHeader) (expectedSha256 data : Bytes) :
    PeerDownloadResult :=
  if H.digest data ≠ header.hash then {}
  else if !expectedSha256.isEmpty && H.hex data != expectedSha256 then {}
  else { success := true, bytesDownloaded := data.length, data := data }

/-- How many bytes of echoed chunk id are read behind the header of a reply. -/
def echoedLength (header : ChunkMessageHeader) : Nat :=
  if 0 < header.chunkIdLength.toNat ∧ header.chunkIdLength.toNat ≤ 256 then
    header.chunkIdLength.toNat
  else 0

/-- The part of `download_from_peer` behind an acceptable response header. -/
def receiveResponse (H : Sha256) (ctx : Nat) (expectedSha256 : Bytes)
    (header : ChunkMessageHeader) : Proc PeerDownloadResult := do
  let id ← readExact (echoedLength header)
  if id.length ≠ echoedLength header then closeWith {}
  else
    let total := header.dataLength.toNat
    if !(← reserve total) then pure {}
    else
      match ← receiveData ctx total total [] with
      | .error result => pure result
      | .ok data =>
          streamClose
          pure (verifyData H header expectedSha256 data)

def downloadFromPeer (H : Sha256) (ctx : Nat) (peer : PeerNode) (expectedSha256 : Bytes) :
    Proc PeerDownloadResult := do
  if !(← tcpConnect peer.address peer.port) then pure {}
  else
    let context ← onTransfer fun t =>
      (t.contexts[ctx]?.getD ⟨[], ⟨[], []⟩, 0, 0, false, false⟩, t)
    if !(← writeMessage (requestHeader context) context.chunkId) then closeWith {}
    else
      match ← readHeader with
      | none => closeWith {}
      | some header =>
          if header.magic ≠ chunkTransferMagic ∨
              header.messageType ≠ ChunkMessageType.response.toUInt32 then closeWith {}
          else receiveResponse H ctx expectedSha256 header

/-! ## The hedged download -/

/-- `total_size` of a context for the request. -/
def totalSize (request : TransferRequest) : Nat :=
  if 0 < request.expectedSize then request.expectedSize else contextChunkSize

def openContext (request : TransferRequest) (t : TransferManager) : Nat × TransferManager :=
  let t := { t with stats := { t.stats with totalDownloads := t.stats.totalDownloads + 1 } }
  let (ctx, t) := t.getOrCreateContext request.chunkId request.enableResume
  let saved := if request.enableResume then (t.loadProgress request.chunkId).getD 0 else 0
  let t := if 0 < saved then
      t.updateContext ctx fun c => { c with isResume := true, downloadedSize := saved }
    else t
  (ctx, t.updateContext ctx fun c => { c with totalSize := totalSize request })

def findCandidates (request : TransferRequest) (t : TransferManager) (discovery : NodeDiscovery) :
    List PeerNode × NodeDiscovery :=
  if !request.sources.isEmpty then (request.sources, discovery)
  else if t.hasNodeDiscovery then discovery.getPeersWithChunk request.chunkId
  else ([], discovery)

/-- How the first section of a call ends: in an exception, with nobody to ask,
or with a context, the candidates and those among them that race. -/
inductive Begun where
  | unreserved
  | nobody
  | race (ctx : Nat) (candidates selected : List PeerNode)
  deriving DecidableEq

/-- What `download_chunk` does before it contacts anyone. -/
def beginDownload (request : TransferRequest) (s : Node) : Begun × Node :=
  let opened := openContext request s.transfer
  let reserved := opened.2.reserveBuffer (totalSize request)
  let t := reserved.2
  if !reserved.1 then (.unreserved, { s with transfer := t })
  else
    let found := findCandidates request t s.discovery
    if found.1.isEmpty then
      let t := { t with stats := { t.stats with failedDownloads := t.stats.failedDownloads + 1 } }
      (.nobody, { s with transfer := t, discovery := found.2 })
    else
      let k := if 0 < request.kValue then request.kValue else t.selectionK
      let selection := t.selectKPeers found.2 found.1 k request.mode
      (.race opened.1 found.1 selection.1,
        { s with transfer := selection.2, discovery := found.2 })

/-- `go_joinable` for each selected peer. -/
def spawnDownloads (ctx : Nat) (expectedSha256 : Bytes) :
    List PeerNode → Proc (List (Nat × PeerNode))
  | [] => pure []
  | peer :: peers => do
      let id ← Coroutine.spawn (S := nodeSignature) (.downloadFromPeer ctx peer expectedSha256)
      let rest ← spawnDownloads ctx expectedSha256 peers
      pure ((id, peer) :: rest)

/-- `co_await` of a download task. -/
def joinDownload (ctx : Nat) (expectedSha256 : Bytes) (handle : Nat × PeerNode) :
    Proc PeerDownloadResult := do
  let finished ← Coroutine.join (S := nodeSignature) handle.1
    (.downloadFromPeer ctx handle.2 expectedSha256)
  match finished.result with
  | .peerDownload result => pure result
  | _ => .diverge

def adopt (ctx : Nat) (result : PeerDownloadResult) : Proc Unit :=
  onTransfer fun t =>
    ((), t.updateContext ctx fun c =>
      { c with stopFlag := true, downloadedSize := result.bytesDownloaded })

/-- The tasks are awaited in the order in which they were started; the first
success in that order wins. -/
def joinDownloads (ctx : Nat) (expectedSha256 : Bytes) :
    List (Nat × PeerNode) → Option Bytes → Proc (Option Bytes)
  | [], winner => pure winner
  | handle :: handles, winner => do
      let result ← joinDownload ctx expectedSha256 handle
      if winner.isNone && result.success then
        adopt ctx result
        joinDownloads ctx expectedSha256 handles (some result.data)
      else joinDownloads ctx expectedSha256 handles winner

def tryFallback (H : Sha256) (ctx : Nat) (expectedSha256 : Bytes) :
    List PeerNode → Proc (Option Bytes)
  | [] => pure none
  | peer :: peers => do
      if ← onTransfer fun t => (!t.running || t.isStopped ctx, t) then pure none
      else
        let result ← downloadFromPeer H ctx peer expectedSha256
        if result.success then
          adopt ctx result
          pure (some result.data)
        else tryFallback H ctx expectedSha256 peers

/-- `std::filesystem::remove(ctx->file_path)`; `false` stands for the exception. -/
def removeTemp (ctx : Nat) (t : TransferManager) : Bool × TransferManager :=
  match t.contexts[ctx]? with
  | none => (true, t)
  | some context =>
      let (removed, files) := t.progressFiles.tryRemove context.filePath
      (removed, { t with progressFiles := files })

/-- The bookkeeping at the end of `download_chunk`; `false` if an exception
leaves it, which it does in front of `remove_transfer`. -/
def endDownload (chunkId : Bytes) (ctx : Nat) (result : Option Bytes) (t : TransferManager) :
    Bool × TransferManager :=
  match result with
  | none =>
      (true, { t with stats := { t.stats with
          failedDownloads := t.stats.failedDownloads + 1 } }.removeTransfer chunkId)
  | some data =>
      let t := t.saveProgress chunkId ((t.contexts[ctx]?.map (·.downloadedSize)).getD 0)
      let (removed, t) := removeTemp ctx t
      if !removed then (false, t)
      else
        let t := t.removeTransfer chunkId
        (true, { t with stats := { t.stats with
          totalBytesDownloaded := t.stats.totalBytesDownloaded + data.length } })

def raceDownloads (H : Sha256) (ctx : Nat) (expectedSha256 : Bytes)
    (candidates selected : List PeerNode) : Proc (Option Bytes) := do
  let handles ← spawnDownloads ctx expectedSha256 selected
  match ← joinDownloads ctx expectedSha256 handles none with
  | some data => pure (some data)
  | none =>
      tryFallback H ctx expectedSha256
        (candidates.filter fun candidate =>
          selected.all fun tried => candidate.nodeId != tried.nodeId)

def downloadChunk (H : Sha256) (request : TransferRequest) : Proc (Option Bytes) := do
  if !(← onTransfer fun t => (t.running, t)) then pure none
  else
    let begun ← Coroutine.atomically (S := nodeSignature) fun s : Node =>
      some (beginDownload request s)
    match begun with
    | .unreserved => .raise
    | .nobody => pure none
    | .race ctx candidates selected =>
        let result ← raceDownloads H ctx request.expectedSha256 candidates selected
        if ← onTransfer (endDownload request.chunkId ctx result) then pure result else .raise

/-! ## The chunk server -/

def maxUploadBytes : Nat := 64 * 1024 * 1024

def emptyReply (messageType : ChunkMessageType) (chunkIdLength : UInt32) : ChunkMessageHeader where
  messageType := messageType.toUInt32
  chunkIdLength := chunkIdLength

def hashedHeader (H : Sha256) (messageType : ChunkMessageType) (chunkIdLength dataLength : UInt32)
    (flags : UInt8) (data : Bytes) : ChunkMessageHeader where
  messageType := messageType.toUInt32
  chunkIdLength := chunkIdLength
  dataLength := dataLength
  hash := H.digest data
  hash_length := H.digest_length data
  flags := flags

/-- Send `data` slice by slice; `false` on the first write that fails.  Each
round sends at least one byte. -/
def sendSlices : Nat → Bytes → Proc Bool
  | 0, rest => pure rest.isEmpty
  | rounds + 1, rest =>
      if rest.isEmpty then pure true
      else do
        acquire .upload (min sliceSize rest.length)
        if ← writeExact (rest.take sliceSize) then sendSlices rounds (rest.drop sliceSize)
        else pure false

section ChunkServer

-- The two callbacks that `main.cpp` hands to the chunk server.
variable (provider : Bytes → Proc (Option Bytes)) (consumer : Bytes → Bytes → Proc Bool)

/-- Data that does not have the announced hash is not handed on. -/
def acceptUpload (H : Sha256) (header : ChunkMessageHeader) (chunkId data : Bytes) : Proc Bool :=
  if H.digest data = header.hash then consumer chunkId data else pure false

/-- The Upload branch of `handle_chunk_request`. -/
def receiveUpload (H : Sha256) (header : ChunkMessageHeader) (chunkId : Bytes) : Proc Unit := do
  let length := header.dataLength.toNat
  if length = 0 ∨ maxUploadBytes < length then pure ()
  else
    let data ← readExact length
    if data.length ≠ length then pure ()
    else
      let accepted ← acceptUpload consumer H header chunkId data
      let ack := if accepted then hashedHeader H .ack header.chunkIdLength 0 0 data
        else emptyReply .error header.chunkIdLength
      let _ ← writeMessage ack chunkId
      streamClose

def serveChunk (H : Sha256) (header : ChunkMessageHeader) (chunkId : Bytes) : Proc Unit := do
  let data := (← provider chunkId).getD []
  if data.isEmpty then
    let _ ← writeMessage (emptyReply .error header.chunkIdLength) chunkId
    streamClose
  else
    let response := hashedHeader H .response header.chunkIdLength (UInt32.ofNat data.length)
      ChunkMessageHeader.flagLastPart data
    if ← writeMessage response chunkId then
      let _ ← sendSlices data.length data
      streamClose
    else streamClose

def handleChunkRequest (H : Sha256) : Proc Unit := do
  match ← readHeader with
  | none => pure ()
  | some header =>
      if header.magic ≠ chunkTransferMagic ∨ 256 < header.chunkIdLength then pure ()
      else
        let chunkId ← readExact header.chunkIdLength.toNat
        if chunkId.length ≠ header.chunkIdLength.toNat then pure ()
        else if header.messageType = ChunkMessageType.upload.toUInt32 then
          receiveUpload consumer H header chunkId
        else serveChunk provider H header chunkId

end ChunkServer

/-! ## Upload -/

def uploadFailed (close : Bool) : Proc Bool := do
  onTransfer fun t =>
    ((), { t with stats := { t.stats with failedUploads := t.stats.failedUploads + 1 } })
  if close then closeWith false else pure false

def readUploadReply (H : Sha256) (data : Bytes) : Proc Bool := do
  match ← readHeader with
  | none => uploadFailed true
  | some reply =>
      let _ ← readExact (echoedLength reply)
      if reply.magic ≠ chunkTransferMagic ∨ reply.messageType ≠ ChunkMessageType.ack.toUInt32 ∨
          H.digest data ≠ reply.hash then uploadFailed true
      else
        streamClose
        onTransfer fun t => ((), { t with stats := { t.stats with
          totalBytesUploaded := t.stats.totalBytesUploaded + data.length } })
        pure true

def uploadChunk (H : Sha256) (chunkId data : Bytes) (peer : PeerNode) : Proc Bool := do
  if !(← onTransfer fun t => (t.running, t)) then pure false
  else
    onTransfer fun t =>
      ((), { t with stats := { t.stats with totalUploads := t.stats.totalUploads + 1 } })
    if !(← tcpConnect peer.address peer.port) then uploadFailed false
    else
      let header := hashedHeader H .upload (UInt32.ofNat chunkId.length) (UInt32.ofNat data.length)
        ChunkMessageHeader.flagLastPart data
      if !(← writeMessage header chunkId) then uploadFailed true
      else if !(← sendSlices data.length data) then uploadFailed true
      else readUploadReply H data

end ElioP2P.P2P
