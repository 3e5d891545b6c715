import ElioP2P.Library.Bytes

/-!
# The control plane client

The request paths that `ControlPlaneClient` of `src/control/client.cpp` builds
for a node.
-/

namespace ElioP2P.Control

open ElioP2P.Library

/-- `"/api/v1/nodes/" + node_id + suffix` -/
def nodePath (suffix nodeId : Bytes) : Bytes := ascii "/api/v1/nodes/" ++ nodeId ++ suffix

/-- The path of `send_heartbeat`. -/
def heartbeatPath : Bytes → Bytes := nodePath (ascii "/heartbeat")

/-- The path of `report_chunks`. -/
def chunksPath : Bytes → Bytes := nodePath (ascii "/chunks")

/-- The path of `fetch_replication_commands`. -/
def commandsPath : Bytes → Bytes := nodePath (ascii "/commands")

/-- The path of the acknowledgement of a command. -/
def ackPath : Bytes → Bytes := nodePath (ascii "/commands/ack")

end ElioP2P.Control
