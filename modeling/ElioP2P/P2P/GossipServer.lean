import ElioP2P.P2P.GossipCodec
import ElioP2P.P2P.Transfer

/-!
# Gossip over TCP

How `src/p2p/node_discovery.cpp` puts one gossip message on a connection and
takes it off again: a 32-bit length in network order and the encoded message.
-/

namespace ElioP2P.P2P

open ElioP2P.Library

def maxMessageSize : Nat := 64 * 1024

def sizeHeader (data : Bytes) : Bytes := writeUInt32 (UInt32.ofNat data.length)

/-- `send_gossip_message_to_peer`: two writes, each of which has to take all of
its bytes at once. -/
def sendGossipMessageToPeer (peer : PeerNode) (msg : GossipMessage) : Proc Bool := do
  let localNodeId ← Coroutine.atomically (S := nodeSignature) fun s : Node =>
    some (s.discovery.localNodeId, s)
  if peer.nodeId = localNodeId then pure true
  else
    let gossipPort := if peer.gossipPort ≠ 0 then peer.gossipPort else peer.port
    if !(← tcpConnect peer.address gossipPort) then pure false
    else
      let data := serializeGossipMessage msg
      let written ← streamWrite (sizeHeader data)
      if written.val ≠ (sizeHeader data).length then pure false
      else
        let written ← streamWrite data
        if written.val ≠ data.length then pure false
        else
          streamClose
          pure true

/-- The reading half, which `handle_tcp_connection` and `receive_gossip_message`
both have.  `buffer` is what the memory of the uninitialised buffer holds: the
length is taken from its first four bytes, however many of them the one read
has filled. -/
def receiveGossipMessage (buffer : Bytes) : Proc (Outcome GossipMessage) := do
  let header ← streamRead 4
  if header.val.isEmpty then pure .rejected
  else
    let sizeBytes := (header.val ++ buffer.drop header.val.length).take 4
    let msgSize := bigEndianValue sizeBytes
    if maxMessageSize < msgSize ∨ msgSize = 0 then pure .rejected
    else
      let data ← readExact msgSize
      if data.length < msgSize then pure .rejected else pure (deserializeGossipMessage data)

/-- `handle_tcp_connection`.  The result is what has been passed on, if
anything. -/
def handleTcpConnection (buffer : Bytes) : Proc (Outcome GossipMessage) := do
  match ← receiveGossipMessage buffer with
  | .ok msg =>
      Coroutine.atomically (S := nodeSignature) fun s : Node =>
        some (.ok msg, { s with discovery := s.discovery.handleGossipMessage msg })
  | .rejected => pure .rejected
  | .outOfBounds => pure .outOfBounds

end ElioP2P.P2P
