import ElioP2P.Control.Client
import ElioP2P.Control.Server

/-!
# Node ids in request paths

The handlers skip fifteen characters for the fourteen of `"/api/v1/nodes/"`.
What they read from a path of the client is the node id without its first
character.
-/

namespace ElioP2P.Control

open ElioP2P.Library

theorem find_nodesPath (id rest : Bytes) :
    find (ascii "/api/v1/nodes/" ++ id ++ rest) (ascii "/api/v1/nodes/") 0 = some 0 := by
  rw [find, if_neg (by simp), List.drop_zero, List.append_assoc, firstMatch_append]
  rfl

/-- What a handler reads from a path that the client has built. -/
theorem nodeIdFromPath_nodePath {suffix id : Bytes} (hne : id ≠ []) (hslash : 47 ∉ id) :
    nodeIdFromPath (47 :: suffix) (nodePath (47 :: suffix) id) = id.tail := by
  obtain ⟨b, rest, rfl⟩ := List.exists_cons_of_ne_nil hne
  have hrest : 47 ∉ rest := fun hmem => hslash (List.mem_cons_of_mem b hmem)
  have hdrop : (nodePath (47 :: suffix) (b :: rest)).drop 15 = rest ++ (47 :: suffix) := by
    rw [nodePath, List.append_assoc]
    rfl
  have hlength : 15 ≤ (nodePath (47 :: suffix) (b :: rest)).length := by
    have hfourteen : (ascii "/api/v1/nodes/").length = 14 := by decide
    simp only [nodePath, List.length_append, hfourteen, List.length_cons]
    omega
  have hfind : find (nodePath (47 :: suffix) (b :: rest)) (47 :: suffix) 15 =
      some (rest.length + 15) := by
    have hmatch := firstMatch_of_notMem hrest suffix []
    rw [List.append_nil] at hmatch
    rw [find, if_neg (by omega), hdrop, hmatch]
    rfl
  unfold nodeIdFromPath
  rw [nodePath, find_nodesPath]
  simp only [Nat.zero_add]
  rw [← nodePath, hfind]
  simp only [substr, hdrop, Nat.add_sub_cancel, List.take_left, List.tail_cons]

theorem tail_ne_self {id : Bytes} (hne : id ≠ []) : id.tail ≠ id := by
  intro heq
  have hlength := congrArg List.length heq
  have hpositive := List.length_pos_of_ne_nil hne
  rw [List.length_tail] at hlength
  omega

/-- No handler reads a node id back from the path that the client has built for
it. -/
theorem nodeId_never_read_back {id : Bytes} (hne : id ≠ []) (hslash : 47 ∉ id) :
    heartbeatNodeId (heartbeatPath id) ≠ id ∧ chunksNodeId (chunksPath id) ≠ id ∧
      commandsNodeId (commandsPath id) ≠ id ∧ ackNodeId (ackPath id) ≠ id := by
  have hread : ∀ suffix, nodeIdFromPath (47 :: suffix) (nodePath (47 :: suffix) id) ≠ id := by
    intro suffix
    rw [nodeIdFromPath_nodePath hne hslash]
    exact tail_ne_self hne
  exact ⟨hread (ascii "heartbeat"), hread (ascii "chunks"), hread (ascii "commands"),
    hread (ascii "commands/ack")⟩

theorem nodeId_never_read_back_node1 :
    heartbeatNodeId (heartbeatPath (ascii "node-1")) ≠ ascii "node-1" ∧
      chunksNodeId (chunksPath (ascii "node-1")) ≠ ascii "node-1" ∧
      commandsNodeId (commandsPath (ascii "node-1")) ≠ ascii "node-1" ∧
      ackNodeId (ackPath (ascii "node-1")) ≠ ascii "node-1" :=
  nodeId_never_read_back (by decide) (by decide)

/-- The heartbeat of `node-1` is taken for one of `ode-1`. -/
theorem heartbeat_of_node1 :
    heartbeatNodeId (heartbeatPath (ascii "node-1")) = ascii "ode-1" ∧
      ascii "ode-1" ≠ ascii "node-1" := by
  decide

end ElioP2P.Control
