import ElioP2P.Control.Client
import ElioP2P.Control.Server

/-!
# Replication commands

The two handlers of `src/control/server.cpp` that hand out and acknowledge
replication commands, `fetch_replication_commands` and `ack_command` of
`src/control/client.cpp`, and the system they make up.

Requests and responses may be lost, repeated and delayed: a request that has
been sent can be served at any time and any number of times, and what was
answered can arrive or not.  A client that crashes leaves its session where it
is and may open a new one.
-/

namespace ElioP2P.Control

open ElioP2P.Library

structure ReplicationCommand where
  commandId : Bytes
  chunkId : Bytes
  action : Bytes
  sourceNodeId : Bytes
  targetNodeId : Bytes
  priority : UInt32 := 0
  createdAt : UInt64 := 0
  deriving DecidableEq

/-! ## The server -/

/-- `deliveredAt` is in seconds; 0 means not delivered yet. -/
structure PendingCommand where
  cmd : ReplicationCommand
  deliveredAt : UInt64 := 0
  deriving DecidableEq

def commandAckTimeoutSec : UInt64 := 60

def PendingCommand.awaitsAck (pending : PendingCommand) (now : UInt64) : Bool :=
  pending.deliveredAt != 0 && now - pending.deliveredAt < commandAckTimeoutSec

def PendingCommand.deliver (pending : PendingCommand) (now : UInt64) : PendingCommand :=
  if pending.awaitsAck now then pending else { pending with deliveredAt := now }

structure CommandServer where
  registry : ControlPlaneServer
  pendingCommands : AList (fun _ : Bytes => List PendingCommand)

inductive CommandsResponse where
  | badRequest
  | notFound
  | ok (commands : List ReplicationCommand)
  deriving DecidableEq

namespace CommandServer

/-- `GET /api/v1/nodes/:node_id/commands` -/
def getCommands (s : CommandServer) (now : UInt64) (nodeId : Bytes) :
    CommandsResponse × CommandServer :=
  if nodeId.isEmpty then (.badRequest, s)
  else
    match s.registry.nodes.lookup nodeId with
    | none => (.notFound, s)
    | some _ =>
        match s.pendingCommands.lookup nodeId with
        | none => (.ok [], s)
        | some pending =>
            let commands := (pending.filter fun p => !p.awaitsAck now).map PendingCommand.cmd
            let pending := pending.map fun p => p.deliver now
            (.ok commands, { s with pendingCommands := s.pendingCommands.insert nodeId pending })

/-- `POST /api/v1/nodes/:node_id/commands/ack`: whether the request is answered
with `ok`, which does not mean that anything was removed. -/
def ackCommand (s : CommandServer) (nodeId commandId : Bytes) : Bool × CommandServer :=
  if nodeId.isEmpty || commandId.isEmpty then (false, s)
  else
    match s.pendingCommands.lookup nodeId with
    | none => (true, s)
    | some pending =>
        let pending := pending.filter fun p => p.cmd.commandId != commandId
        if pending.isEmpty then
          (true, { s with pendingCommands := s.pendingCommands.erase nodeId })
        else (true, { s with pendingCommands := s.pendingCommands.insert nodeId pending })

end CommandServer

/-- The node that the server takes a request for, by the node that the client
has sent it for. -/
structure Reading where
  get : Bytes → Bytes
  ack : Bytes → Bytes

def Reading.code : Reading where
  get nodeId := commandsNodeId (commandsPath nodeId)
  ack nodeId := ackNodeId (ackPath nodeId)

/-! ## The client -/

/-- A command as the client reads it.  The time of its creation goes through an
`int`. -/
def parseCommand (cmd : ReplicationCommand) : ReplicationCommand :=
  { cmd with createdAt := cmd.createdAt.toUInt32.toInt32.toInt64.toUInt64 }

inductive FetchPhase where
  | waiting
  | calling (commands : List ReplicationCommand)
  | acking (commands : List ReplicationCommand)
  | ended
  deriving DecidableEq

structure FetchSession where
  nodeId : Bytes
  phase : FetchPhase := .waiting
  deriving DecidableEq

/-- The callback is called if there is something to process. -/
def FetchPhase.onResponse : CommandsResponse → FetchPhase
  | .ok commands => if commands.isEmpty then .ended else .calling (commands.map parseCommand)
  | .badRequest | .notFound => .ended

/-! ## The system -/

structure CommandDelivery where
  nodeId : Bytes
  commandId : Bytes
  time : UInt64
  deriving DecidableEq

/-- `responses` has the session that a response is for; `acks` are the
acknowledgements that have been sent, as node and command.  `deliveries` and
`processed`, the batches on which a callback has returned normally, are history
variables. -/
structure CommandSystem where
  server : CommandServer
  now : UInt64
  sessions : List FetchSession := []
  responses : List (Nat × CommandsResponse) := []
  acks : List (Bytes × Bytes) := []
  deliveries : List CommandDelivery := []
  processed : List (Bytes × List ReplicationCommand) := []

/-- `stop` ends a session: the response is lost, the callback throws or the
client crashes. -/
inductive CommandEvent where
  | tick (now : UInt64)
  | fetch (nodeId : Bytes)
  | serveGet (session : Nat)
  | receive (session response : Nat)
  | callbackReturns (session : Nat)
  | sendAck (session : Nat) (connected : Bool)
  | serveAck (nodeId commandId : Bytes)
  | stop (session : Nat)
  deriving DecidableEq

namespace CommandSystem

def setPhase (s : CommandSystem) (session : Nat) (phase : FetchPhase) : CommandSystem :=
  { s with sessions := s.sessions.modify session fun f => { f with phase := phase } }

def deliveriesOf (nodeId : Bytes) (now : UInt64) : CommandsResponse → List CommandDelivery
  | .ok commands => commands.map fun cmd => ⟨nodeId, cmd.commandId, now⟩
  | .badRequest | .notFound => []

def serveGet (reading : Reading) (s : CommandSystem) (session : Nat) (nodeId : Bytes) :
    CommandSystem :=
  let target := reading.get nodeId
  let (response, server) := s.server.getCommands s.now target
  { s with
    server := server
    responses := s.responses ++ [(session, response)]
    deliveries := deliveriesOf target s.now response ++ s.deliveries }

def step (reading : Reading) (s : CommandSystem) : CommandEvent → Option CommandSystem
  | .tick now => if s.now ≤ now then some { s with now := now } else none
  | .fetch nodeId =>
      if nodeId.isEmpty then none
      else some { s with sessions := s.sessions ++ [{ nodeId := nodeId }] }
  | .serveGet session =>
      (s.sessions[session]?).map fun fetch => s.serveGet reading session fetch.nodeId
  | .receive session response => do
      let fetch ← s.sessions[session]?
      let (receiver, response) ← s.responses[response]?
      if fetch.phase = .waiting ∧ receiver = session then
        some (s.setPhase session (.onResponse response))
      else none
  | .callbackReturns session => do
      let fetch ← s.sessions[session]?
      match fetch.phase with
      | .calling commands =>
          some { s.setPhase session (.acking commands) with
            processed := (fetch.nodeId, commands) :: s.processed }
      | .waiting | .acking _ | .ended => none
  | .sendAck session connected => do
      let fetch ← s.sessions[session]?
      match fetch.phase with
      | .acking (cmd :: commands) =>
          let s := s.setPhase session (.acking commands)
          if cmd.commandId.isEmpty || !connected then some s
          else some { s with acks := (fetch.nodeId, cmd.commandId) :: s.acks }
      | .waiting | .calling _ | .acking [] | .ended => none
  | .serveAck nodeId commandId =>
      if (nodeId, commandId) ∈ s.acks then
        some { s with server := (s.server.ackCommand (reading.ack nodeId) commandId).2 }
      else none
  | .stop session => some (s.setPhase session .ended)

end CommandSystem

end ElioP2P.Control
