import ElioP2P.P2P.Proofs.Streams
import ElioP2P.P2P.Proofs.TransferTraffic
import ElioP2P.Proxy.Proofs.Announcements

/-!
# A cluster of nodes

Any number of nodes and the connections between them.  A task that has connected
talks over a new stream; at its other end, once the connection is accepted,
stands a task of the chunk server of some node.  The network delivers what was
written, in order and in pieces of any size, or it delivers nothing more.  Which
node a connection reaches is left open, as addresses are hearsay.
-/

namespace ElioP2P

open ElioP2P.Library ElioP2P.Cache ElioP2P.P2P ElioP2P.Proxy

/-! ## Streams of a task -/

/-- The streams that a task has had.  A task of the chunk server is started on
its stream, any other one has to connect first. -/
structure Streams where
  earlier : List Traffic := []
  current : Traffic := {}

def connects : NetExchange → Bool
  | ⟨.tcpConnect _ _, ok⟩ => ok
  | _ => false

namespace Streams

def after (streams : Streams) (exchange : NetExchange) : Streams :=
  if connects exchange then ⟨streams.earlier ++ [streams.current], {}⟩
  else { streams with current := streams.current.after (nodePort exchange.1) exchange.2 }

def all (streams : Streams) : List Traffic := streams.earlier ++ [streams.current]

end Streams

def streamsOf (history : List (Event nodeSignature)) : Streams :=
  (exchangesOf history).foldl Streams.after {}

/-! ## The cluster -/

structure Link where
  client : Nat
  task : Nat
  stream : Nat
  server : Nat
  connection : Nat
  deriving DecidableEq

structure Cluster where
  nodes : List (System nodeSignature)
  links : List Link := []

inductive ClusterEvent where
  | node (node : Nat) (event : NodeEvent)
  | accept (client task stream server : Nat)

namespace Cluster

def stream (cluster : Cluster) (node task stream : Nat) : Option Traffic := do
  let sys ← cluster.nodes[node]?
  let task ← sys.tasks[task]?
  (streamsOf task.history).all[stream]?

def farEnd (cluster : Cluster) (node task stream : Nat) : Option (Nat × Nat × Nat) :=
  match cluster.links.find? fun link =>
      link.client = node && link.task = task && link.stream = stream with
  | some link => some (link.server, link.connection, 0)
  | none =>
      (cluster.links.find? fun link =>
        link.server = node && link.connection = task && stream = 0).map fun link =>
          (link.client, link.task, link.stream)

def written (cluster : Cluster) (node task stream : Nat) : Bytes :=
  match cluster.farEnd node task stream with
  | some (node, task, stream) => ((cluster.stream node task stream).map Traffic.sent).getD []
  | none => []

section Steps

variable (H : Sha256) (fuel : Nat) (handler : Nat → RequestHandler)

/-- A connection is accepted once; the first stream of a task is not one that it
has opened. -/
def step (cluster : Cluster) : ClusterEvent → Option Cluster
  | .node node event => do
      let sys ← cluster.nodes[node]?
      let sys' ← nodeStep H fuel (handler node) sys event
      some { cluster with nodes := cluster.nodes.set node sys' }
  | .accept client task stream server => do
      let _ ← cluster.stream client task stream
      let sys ← cluster.nodes[server]?
      let sys' ← nodeStep H fuel (handler server) sys (.task (.start .chunkConnection))
      if stream = 0 ∨ (cluster.farEnd client task stream).isSome then none
      else
        some
          { nodes := cluster.nodes.set server sys'
            links := cluster.links ++ [⟨client, task, stream, server, sys.tasks.length⟩] }

end Steps

def readSize? (task : Task nodeSignature) : Option Nat :=
  match task.rest with
  | .await (.external (.streamRead n)) _ => some n
  | _ => none

/-- Every byte that a task reads was written at the other end of its stream. -/
def Delivers (cluster : Cluster) : ClusterEvent → Prop
  | .node node (.task (.resume id reply)) =>
      ∀ sys ∈ cluster.nodes[node]?, ∀ task ∈ sys.tasks[id]?, ∀ n ∈ readSize? task,
        (streamsOf task.history).current.received ++ (reply (.streamRead n)).val <+:
          cluster.written node id (streamsOf task.history).earlier.length
  | .node _ (.task (.start _)) | .node _ (.cache _) | .accept _ _ _ _ => True

instance (cluster : Cluster) : ∀ event, Decidable (cluster.Delivers event)
  | .node node (.task (.resume id reply)) =>
      inferInstanceAs (Decidable (∀ sys ∈ cluster.nodes[node]?, ∀ task ∈ sys.tasks[id]?,
        ∀ n ∈ readSize? task,
          (streamsOf task.history).current.received ++ (reply (.streamRead n)).val <+:
            cluster.written node id (streamsOf task.history).earlier.length))
  | .node _ (.task (.start _)) | .node _ (.cache _) | .accept _ _ _ _ =>
      inferInstanceAs (Decidable True)

def initial (nodes : List Node) : Cluster := { nodes := nodes.map System.initial }

end Cluster

end ElioP2P
