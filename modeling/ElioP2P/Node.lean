import ElioP2P.Cache.ChunkManager
import ElioP2P.Library.Coroutine
import ElioP2P.P2P.ChunkMessage
import ElioP2P.P2P.TransferManager
import ElioP2P.Proxy.RequestHandler

/-!
# One node

The components that `main.cpp` wires together share one state, and everything
the node does is a task over it: a proxied request, a download from one peer, a
chunk server connection.  Tasks suspend at the `co_await`s of the source, and
before each call into the cache and each announcement, since the proxy and the chunk
server run on threads of their own.
-/

namespace ElioP2P

open ElioP2P.Library ElioP2P.Cache ElioP2P.P2P ElioP2P.Proxy

/-- What `RequestHandler::Impl` holds: which components it was given, and its
settings.  All of it is fixed before the first request arrives. -/
structure RequestHandler where
  hasCacheManager : Bool := true
  hasStorageClient : Bool := true
  hasTransferManager : Bool := true
  chunkSizeMb : Nat := 16
  enableP2pFallback : Bool := true
  allowedBucket : Bytes := []

def RequestHandler.chunkSize (handler : RequestHandler) : Nat := handler.chunkSizeMb * 1024 * 1024

/-- A hash that `fetch_chunk` has recorded in a `#meta` chunk for data it got
from the origin. -/
structure Anchor where
  fullObjectKey : Bytes
  chunkIndex : Nat
  hash : Bytes
  deriving DecidableEq

structure ConsumerCall where
  chunkId : Bytes
  data : Bytes
  accepted : Bool
  deriving DecidableEq

/-- The shared state.  `anchors` and `consumed` are history variables: nothing
reads them. -/
structure Node where
  cache : ChunkManager
  discovery : NodeDiscovery
  transfer : TransferManager
  anchors : List Anchor := []
  consumed : List ConsumerCall := []

/-! ## What tasks wait for -/

structure ObjectMetadata where
  size : Nat
  etag : Bytes

/-- A call into a component that another thread may hold the mutex of. -/
inductive Access where
  | load (chunkId : Bytes)
  | store (chunkId data : Bytes)
  | record (fullObjectKey : Bytes) (obj : ObjectInfo) (chunkIndex : Nat) (hash : Bytes)
  | announce (chunkId : Bytes)
  deriving DecidableEq

/-- `reserve` is the place where a peer decides how much is allocated; its
answer says whether the allocation succeeds. -/
inductive External where
  | tcpConnect (address : Bytes) (port : UInt16)
  | streamRead (n : Nat)
  | streamWrite (bytes : Bytes)
  | streamClose
  | reserve (n : Nat)
  | sleepFor (ms : Nat)
  | lock (access : Access)
  | headObject (bucket key : Bytes)
  | getObject (bucket key : Bytes) (offset length : Nat)

/-- A read returns at most as many bytes as were asked for and none at the end
of the stream or on an error; a write returns how many bytes it took, none on
an error. -/
def External.Answer : External → Type
  | .tcpConnect _ _ => Bool
  | .streamRead n => { bytes : Bytes // bytes.length ≤ n }
  | .streamWrite bytes => Fin (bytes.length + 1)
  | .streamClose => Unit
  | .reserve _ => Bool
  | .sleepFor _ => Unit
  | .lock _ => Unit
  | .headObject _ _ => Option ObjectMetadata
  | .getObject _ _ _ _ => Option Bytes

structure PeerDownloadResult where
  success : Bool := false
  bytesDownloaded : Nat := 0
  data : Bytes := []
  deriving DecidableEq

inductive Job where
  | request (request : HttpRequest)
  | downloadFromPeer (ctx : Nat) (peer : PeerNode) (expectedSha256 : Bytes)
  | downloadChunk (request : TransferRequest)
  | uploadChunk (chunkId data : Bytes) (peer : PeerNode)
  | chunkConnection
  | cancelTransfer (chunkId : Bytes)
  | discovery (op : NodeDiscovery.Op)
  deriving DecidableEq

/-- `thrown` stands for an exception that has left the coroutine. -/
inductive JobResult where
  | response (handled : Handled)
  | peerDownload (result : PeerDownloadResult)
  | chunk (data : Option Bytes)
  | uploaded (accepted : Bool)
  | ended
  | thrown

abbrev nodeSignature : Signature where
  External := External
  Answer := External.Answer
  Job := Job
  Result := JobResult
  thrown := .thrown
  Frame := Option RequestFrame
  State := Node

abbrev Proc (α : Type) := Coroutine nodeSignature α

end ElioP2P
