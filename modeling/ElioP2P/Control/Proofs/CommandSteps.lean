import ElioP2P.Control.Commands
import ElioP2P.Library.Runs

/-!
# Steps of the command protocol

What the two handlers do to the lists of pending commands, what a step can do to
the clients, and the invariant of the server: pending commands come from the
start, and the stamp of each is the time of its last delivery.
-/

namespace ElioP2P.Control

open ElioP2P.Library

/-! ## The handlers -/

namespace CommandServer

def listOf (s : CommandServer) (nodeId : Bytes) : List PendingCommand :=
  (s.pendingCommands.lookup nodeId).getD []

def Registered (s : CommandServer) (nodeId : Bytes) : Prop :=
  (s.registry.nodes.lookup nodeId).isSome = true

instance (s : CommandServer) (nodeId : Bytes) : Decidable (s.Registered nodeId) :=
  inferInstanceAs (Decidable (_ = true))

def Answers (s : CommandServer) (nodeId : Bytes) : Prop := nodeId ≠ [] ∧ s.Registered nodeId

theorem listOf_insert (s : CommandServer) (nodeId n : Bytes) (pending : List PendingCommand) :
    listOf { s with pendingCommands := s.pendingCommands.insert nodeId pending } n =
      if n = nodeId then pending else s.listOf n := by
  by_cases hn : n = nodeId
  · subst hn
    simp [listOf]
  · rw [if_neg hn, listOf, AList.lookup_insert_ne hn, listOf]

theorem listOf_erase (s : CommandServer) (nodeId n : Bytes) :
    listOf { s with pendingCommands := s.pendingCommands.erase nodeId } n =
      if n = nodeId then [] else s.listOf n := by
  by_cases hn : n = nodeId
  · subst hn
    simp [listOf]
  · rw [if_neg hn, listOf, AList.lookup_erase_ne hn, listOf]

theorem getCommands_of_answers {s : CommandServer} {nodeId : Bytes} (now : UInt64)
    (h : s.Answers nodeId) :
    (s.getCommands now nodeId).1 =
        .ok (((s.listOf nodeId).filter fun p => !p.awaitsAck now).map PendingCommand.cmd) ∧
      ∀ n, (s.getCommands now nodeId).2.listOf n =
        if n = nodeId then (s.listOf n).map fun p => p.deliver now else s.listOf n := by
  obtain ⟨hid, hregistered⟩ := h
  obtain ⟨info, hinfo⟩ := Option.isSome_iff_exists.mp hregistered
  unfold getCommands
  rw [if_neg (by simpa using hid), hinfo]
  cases hpending : s.pendingCommands.lookup nodeId with
  | none =>
      have hempty : s.listOf nodeId = [] := by rw [listOf, hpending, Option.getD_none]
      simp only [hempty, List.filter_nil, List.map_nil, true_and]
      intro n
      split
      · rename_i hn
        rw [hn, hempty, List.map_nil]
      · rfl
  | some pending =>
      have hlist : s.listOf nodeId = pending := by rw [listOf, hpending, Option.getD_some]
      rw [hlist]
      refine ⟨rfl, fun n => ?_⟩
      simp only [listOf_insert]
      split
      · rename_i hn
        rw [hn, hlist]
      · rfl

theorem getCommands_of_not_answers {s : CommandServer} {nodeId : Bytes} (now : UInt64)
    (h : ¬ s.Answers nodeId) :
    (s.getCommands now nodeId).2 = s ∧
      ((s.getCommands now nodeId).1 = .badRequest ∨ (s.getCommands now nodeId).1 = .notFound) := by
  unfold getCommands
  split
  · exact ⟨rfl, Or.inl rfl⟩
  · rename_i hid
    cases hinfo : s.registry.nodes.lookup nodeId with
    | none => exact ⟨rfl, Or.inr rfl⟩
    | some info =>
        refine absurd ⟨by simpa using hid, ?_⟩ h
        rw [Registered, hinfo]
        rfl

theorem listOf_ackCommand (s : CommandServer) (nodeId commandId n : Bytes) :
    (s.ackCommand nodeId commandId).2.listOf n =
      if n = nodeId ∧ nodeId ≠ [] ∧ commandId ≠ [] then
        (s.listOf n).filter fun p => p.cmd.commandId != commandId
      else s.listOf n := by
  unfold ackCommand
  by_cases hids : nodeId = [] ∨ commandId = []
  · rw [if_pos (by simpa using hids), if_neg (by tauto)]
  · rw [if_neg (by simpa using hids)]
    obtain ⟨hnode, hcommand⟩ := not_or.mp hids
    have hcases : (n = nodeId ∧ nodeId ≠ [] ∧ commandId ≠ []) ↔ n = nodeId := by tauto
    rw [if_congr hcases rfl rfl]
    cases hpending : s.pendingCommands.lookup nodeId with
    | none =>
        simp only
        split
        · rename_i hn
          rw [hn, listOf, hpending]
          rfl
        · rfl
    | some pending =>
        have hlist : s.listOf nodeId = pending := by rw [listOf, hpending, Option.getD_some]
        simp only
        split
        · rename_i hempty
          rw [listOf_erase]
          split
          · rename_i hn
            rw [hn, hlist, List.isEmpty_iff.mp hempty]
          · rfl
        · rw [listOf_insert]
          split
          · rename_i hn
            rw [hn, hlist]
          · rfl

end CommandServer

namespace CommandSystem

/-! ## Deliveries and their stamps -/

def Due (s : CommandSystem) (nodeId : Bytes) (pending : PendingCommand) : Prop :=
  ∀ d ∈ s.deliveries, d.nodeId = nodeId → d.commandId = pending.cmd.commandId →
    d.time.toNat + 60 ≤ s.now.toNat

instance (s : CommandSystem) (nodeId : Bytes) (pending : PendingCommand) :
    Decidable (s.Due nodeId pending) :=
  inferInstanceAs (Decidable (∀ d ∈ s.deliveries, _))

structure Fresh (s : CommandSystem) : Prop where
  clock : s.now ≠ 0
  sessions : s.sessions = []
  responses : s.responses = []
  acks : s.acks = []
  deliveries : s.deliveries = []
  processed : s.processed = []
  ids : ∀ nodeId, ((s.server.listOf nodeId).map fun p => p.cmd.commandId).Nodup
  pending : ∀ nodeId, ∀ p ∈ s.server.listOf nodeId, p.cmd.commandId ≠ [] ∧ p.deliveredAt = 0

/-- The stamp of a pending command is the time of its last delivery. -/
structure Stamped (s : CommandSystem) (nodeId : Bytes) (p : PendingCommand) : Prop where
  past : p.deliveredAt ≤ s.now
  last : ∀ d ∈ s.deliveries, d.nodeId = nodeId → d.commandId = p.cmd.commandId →
    d.time ≤ p.deliveredAt
  delivered : p.deliveredAt ≠ 0 → ∃ d ∈ s.deliveries, d.nodeId = nodeId ∧
    d.commandId = p.cmd.commandId ∧ d.time = p.deliveredAt

theorem sub_lt_sixty_iff {now t : UInt64} (h : t ≤ now) :
    now - t < commandAckTimeoutSec ↔ now.toNat < t.toNat + 60 := by
  have hle := UInt64.le_iff_toNat_le.mp h
  rw [UInt64.lt_iff_toNat_lt, UInt64.toNat_sub_of_le _ _ h]
  change now.toNat - t.toNat < 60 ↔ _
  omega

/-- The code finds due what has not been delivered within the last minute. -/
theorem awaitsAck_iff {s : CommandSystem} {nodeId : Bytes} {p : PendingCommand}
    (hpositive : ∀ d ∈ s.deliveries, d.time ≠ 0) (h : Stamped s nodeId p) :
    (!p.awaitsAck s.now) = decide (s.Due nodeId p) := by
  rw [Bool.eq_iff_iff, decide_eq_true_iff, PendingCommand.awaitsAck]
  simp only [Bool.not_eq_true', Bool.and_eq_false_iff, bne_eq_false_iff_eq, decide_eq_false_iff_not,
    sub_lt_sixty_iff h.past]
  constructor
  · rintro (hzero | hlate) d hd hnode hcommand
    · have hle := h.last d hd hnode hcommand
      rw [hzero, UInt64.le_zero_iff] at hle
      exact absurd hle (hpositive d hd)
    · have hle := UInt64.le_iff_toNat_le.mp (h.last d hd hnode hcommand)
      omega
  · intro hdue
    by_cases hzero : p.deliveredAt = 0
    · exact Or.inl hzero
    · obtain ⟨d, hd, hnode, hcommand, htime⟩ := h.delivered hzero
      have hlate := hdue d hd hnode hcommand
      rw [htime] at hlate
      exact Or.inr (by omega)

/-! ## Steps -/

theorem tick_inv {reading : Reading} {s s' : CommandSystem} {now : UInt64}
    (hstep : s.step reading (.tick now) = some s') : s.now ≤ now ∧ s' = { s with now := now } := by
  simp only [step] at hstep
  split at hstep
  · rename_i hle
    cases hstep
    exact ⟨hle, rfl⟩
  · cases hstep

theorem fetch_inv {reading : Reading} {s s' : CommandSystem} {nodeId : Bytes}
    (hstep : s.step reading (.fetch nodeId) = some s') :
    nodeId ≠ [] ∧ s' = { s with sessions := s.sessions ++ [{ nodeId := nodeId }] } := by
  simp only [step] at hstep
  split at hstep
  · cases hstep
  · rename_i hid
    cases hstep
    exact ⟨by simpa using hid, rfl⟩

theorem receive_inv {reading : Reading} {s s' : CommandSystem} {session response : Nat}
    (hstep : s.step reading (.receive session response) = some s') :
    ∃ fetch answer, s.sessions[session]? = some fetch ∧ (session, answer) ∈ s.responses ∧
      s' = s.setPhase session (.onResponse answer) := by
  obtain ⟨fetch, hfetch, hrest⟩ := Option.bind_eq_some_iff.mp hstep
  obtain ⟨⟨receiver, answer⟩, hanswer, hlast⟩ := Option.bind_eq_some_iff.mp hrest
  simp only at hlast
  split at hlast
  · rename_i hreceiver
    cases hlast
    refine ⟨fetch, answer, hfetch, ?_, rfl⟩
    rw [← hreceiver.2]
    exact List.mem_of_getElem? hanswer
  · cases hlast

theorem callbackReturns_inv {reading : Reading} {s s' : CommandSystem} {session : Nat}
    (hstep : s.step reading (.callbackReturns session) = some s') :
    ∃ fetch commands, s.sessions[session]? = some fetch ∧ fetch.phase = .calling commands ∧
      s' = { s.setPhase session (.acking commands) with
        processed := (fetch.nodeId, commands) :: s.processed } := by
  obtain ⟨fetch, hfetch, hrest⟩ := Option.bind_eq_some_iff.mp hstep
  split at hrest
  · rename_i commands hphase
    cases hrest
    exact ⟨fetch, commands, hfetch, hphase, rfl⟩
  all_goals cases hrest

/-- An acknowledgement is sent if the command has an id and the server can be
reached; the client goes on to the next command in any case. -/
theorem sendAck_inv {reading : Reading} {s s' : CommandSystem} {session : Nat} {connected : Bool}
    (hstep : s.step reading (.sendAck session connected) = some s') :
    ∃ fetch cmd commands, s.sessions[session]? = some fetch ∧
      fetch.phase = .acking (cmd :: commands) ∧ (s' = s.setPhase session (.acking commands) ∨
        cmd.commandId ≠ [] ∧ s' = { s.setPhase session (.acking commands) with
          acks := (fetch.nodeId, cmd.commandId) :: s.acks }) := by
  obtain ⟨fetch, hfetch, hrest⟩ := Option.bind_eq_some_iff.mp hstep
  split at hrest
  · rename_i cmd commands hphase
    refine ⟨fetch, cmd, commands, hfetch, hphase, ?_⟩
    simp only at hrest
    split at hrest
    · cases hrest
      exact Or.inl rfl
    · rename_i hsent
      cases hrest
      refine Or.inr ⟨fun hempty => hsent ?_, rfl⟩
      rw [hempty]
      rfl
  all_goals cases hrest

structure Quiet (s s' : CommandSystem) : Prop where
  server : s'.server = s.server
  deliveries : s'.deliveries = s.deliveries
  responses : s'.responses = s.responses
  now : s.now ≤ s'.now

theorem quiet_step {reading : Reading} {s s' : CommandSystem} {event : CommandEvent}
    (hget : ∀ session, event ≠ .serveGet session)
    (hack : ∀ nodeId commandId, event ≠ .serveAck nodeId commandId)
    (hstep : s.step reading event = some s') : Quiet s s' := by
  cases event with
  | tick now =>
      obtain ⟨hle, rfl⟩ := tick_inv hstep
      exact ⟨rfl, rfl, rfl, hle⟩
  | fetch nodeId =>
      obtain ⟨-, rfl⟩ := fetch_inv hstep
      exact ⟨rfl, rfl, rfl, UInt64.le_refl _⟩
  | serveGet session => exact absurd rfl (hget session)
  | receive session response =>
      obtain ⟨fetch, answer, -, -, rfl⟩ := receive_inv hstep
      exact ⟨rfl, rfl, rfl, UInt64.le_refl _⟩
  | callbackReturns session =>
      obtain ⟨fetch, commands, -, -, rfl⟩ := callbackReturns_inv hstep
      exact ⟨rfl, rfl, rfl, UInt64.le_refl _⟩
  | sendAck session connected =>
      obtain ⟨fetch, cmd, commands, -, -, rfl | ⟨-, rfl⟩⟩ := sendAck_inv hstep
      · exact ⟨rfl, rfl, rfl, UInt64.le_refl _⟩
      · exact ⟨rfl, rfl, rfl, UInt64.le_refl _⟩
  | serveAck nodeId commandId => exact absurd rfl (hack nodeId commandId)
  | stop session =>
      cases hstep
      exact ⟨rfl, rfl, rfl, UInt64.le_refl _⟩

theorem step_cases {reading : Reading} {s s' : CommandSystem} {event : CommandEvent}
    (hstep : s.step reading event = some s') :
    (∃ session fetch, event = .serveGet session ∧ s.sessions[session]? = some fetch ∧
      s' = s.serveGet reading session fetch.nodeId) ∨
    (∃ nodeId commandId, event = .serveAck nodeId commandId ∧ (nodeId, commandId) ∈ s.acks ∧
      s' = { s with server := (s.server.ackCommand (reading.ack nodeId) commandId).2 }) ∨
    Quiet s s' := by
  by_cases hget : ∃ session, event = .serveGet session
  · obtain ⟨session, rfl⟩ := hget
    obtain ⟨fetch, hfetch, rfl⟩ := Option.map_eq_some_iff.mp hstep
    exact Or.inl ⟨session, fetch, rfl, hfetch, rfl⟩
  · by_cases hack : ∃ nodeId commandId, event = .serveAck nodeId commandId
    · obtain ⟨nodeId, commandId, rfl⟩ := hack
      simp only [step] at hstep
      split at hstep
      · rename_i hsent
        cases hstep
        exact Or.inr (Or.inl ⟨nodeId, commandId, rfl, hsent, rfl⟩)
      · cases hstep
    · exact Or.inr (Or.inr (quiet_step (fun session hevent => hget ⟨session, hevent⟩)
        (fun nodeId commandId hevent => hack ⟨nodeId, commandId, hevent⟩) hstep))

inductive Advances (s s' : CommandSystem) (session : Nat) (nodeId : Bytes) :
    FetchPhase → FetchPhase → Prop
  | same (phase : FetchPhase) : Advances s s' session nodeId phase phase
  | ended (phase : FetchPhase) : Advances s s' session nodeId phase .ended
  | response (phase phase' : FetchPhase) (response : CommandsResponse) :
      (session, response) ∈ s.responses → phase' = .onResponse response →
        Advances s s' session nodeId phase phase'
  | processed (commands : List ReplicationCommand) : (nodeId, commands) ∈ s'.processed →
      Advances s s' session nodeId (.calling commands) (.acking commands)
  | acked (cmd : ReplicationCommand) (commands : List ReplicationCommand) :
      Advances s s' session nodeId (.acking (cmd :: commands)) (.acking commands)

namespace Advances

theorem calling {s s' : CommandSystem} {session : Nat} {nodeId : Bytes} {phase : FetchPhase}
    {commands : List ReplicationCommand}
    (h : Advances s s' session nodeId phase (.calling commands)) :
    phase = .calling commands ∨
      ∃ answer, (session, .ok answer) ∈ s.responses ∧ commands = answer.map parseCommand := by
  cases h with
  | same => exact Or.inl rfl
  | response _ _ response hmem heq =>
      cases response with
      | ok answer =>
          rw [FetchPhase.onResponse] at heq
          split at heq
          · cases heq
          · exact Or.inr ⟨answer, hmem, FetchPhase.calling.inj heq⟩
      | badRequest => cases heq
      | notFound => cases heq

theorem acking {s s' : CommandSystem} {session : Nat} {nodeId : Bytes} {phase : FetchPhase}
    {commands : List ReplicationCommand}
    (h : Advances s s' session nodeId phase (.acking commands)) :
    phase = .acking commands ∨ (nodeId, commands) ∈ s'.processed ∨
      ∃ cmd, phase = .acking (cmd :: commands) := by
  cases h with
  | same => exact Or.inl rfl
  | response _ _ response hmem heq =>
      cases response with
      | ok answer =>
          rw [FetchPhase.onResponse] at heq
          split at heq <;> cases heq
      | badRequest => cases heq
      | notFound => cases heq
  | processed _ hmem => exact Or.inr (Or.inl hmem)
  | acked cmd _ => exact Or.inr (Or.inr ⟨cmd, rfl⟩)

end Advances

structure Progresses (s s' : CommandSystem) : Prop where
  sessions : ∀ (session : Nat) (fetch' : FetchSession), s'.sessions[session]? = some fetch' →
    (∃ fetch, s.sessions[session]? = some fetch ∧ fetch'.nodeId = fetch.nodeId ∧
      Advances s s' session fetch.nodeId fetch.phase fetch'.phase) ∨
    (s.sessions.length ≤ session ∧ fetch'.nodeId ≠ [] ∧ fetch'.phase = .waiting)
  length : s.sessions.length ≤ s'.sessions.length
  processed : ∀ nodeId batch, (nodeId, batch) ∈ s'.processed → (nodeId, batch) ∈ s.processed ∨
    ∃ (session : Nat) (fetch : FetchSession), s.sessions[session]? = some fetch ∧
      fetch.nodeId = nodeId ∧ fetch.phase = .calling batch
  kept : s.processed ⊆ s'.processed
  acks : ∀ nodeId commandId, (nodeId, commandId) ∈ s'.acks → (nodeId, commandId) ∈ s.acks ∨
    ∃ (session : Nat) (fetch : FetchSession) (cmd : ReplicationCommand) (commands : _),
      s.sessions[session]? = some fetch ∧ fetch.nodeId = nodeId ∧
      fetch.phase = .acking (cmd :: commands) ∧ cmd.commandId = commandId ∧ commandId ≠ []

namespace Progresses

theorem of_eq {s s' : CommandSystem} (hsessions : s'.sessions = s.sessions)
    (hprocessed : s'.processed = s.processed) (hacks : s'.acks = s.acks) : Progresses s s' := by
  refine ⟨fun session fetch' hfetch' => ?_, ?_, ?_, ?_, ?_⟩
  · rw [hsessions] at hfetch'
    exact Or.inl ⟨fetch', hfetch', rfl, .same _⟩
  · rw [hsessions]
  · rw [hprocessed]
    exact fun _ _ h => Or.inl h
  · rw [hprocessed]
    exact List.Subset.refl _
  · rw [hacks]
    exact fun _ _ h => Or.inl h

theorem of_fetch {s : CommandSystem} {nodeId : Bytes} (hid : nodeId ≠ []) :
    Progresses s { s with sessions := s.sessions ++ [{ nodeId := nodeId }] } := by
  refine ⟨fun session fetch' hfetch' => ?_, by simp, fun _ _ h => Or.inl h, List.Subset.refl _,
    fun _ _ h => Or.inl h⟩
  rcases Nat.lt_or_ge session s.sessions.length with hold | hnew
  · rw [List.getElem?_append_left hold] at hfetch'
    exact Or.inl ⟨fetch', hfetch', rfl, .same _⟩
  · rw [List.getElem?_append_right hnew] at hfetch'
    have hfetch := List.eq_of_mem_singleton (List.mem_of_getElem? hfetch')
    rw [hfetch]
    exact Or.inr ⟨hnew, hid, rfl⟩

theorem of_setPhase {s s' : CommandSystem} {session : Nat} {fetch : FetchSession}
    {phase : FetchPhase} (hfetch : s.sessions[session]? = some fetch)
    (hsessions : s'.sessions = (s.setPhase session phase).sessions)
    (hadvances : Advances s s' session fetch.nodeId fetch.phase phase)
    (hprocessed : s'.processed = s.processed ∨
      ∃ commands, fetch.phase = .calling commands ∧
        s'.processed = (fetch.nodeId, commands) :: s.processed)
    (hacks : s'.acks = s.acks ∨
      ∃ cmd commands, fetch.phase = .acking (cmd :: commands) ∧ cmd.commandId ≠ [] ∧
        s'.acks = (fetch.nodeId, cmd.commandId) :: s.acks) : Progresses s s' := by
  refine ⟨fun i fetch' hfetch' => ?_, ?_, ?_, ?_, ?_⟩
  · rw [hsessions, setPhase, List.getElem?_modify] at hfetch'
    obtain ⟨old, hold, hnew⟩ := Option.map_eq_some_iff.mp hfetch'
    rw [← hnew]
    by_cases hi : session = i
    · subst hi
      rw [hfetch] at hold
      cases hold
      exact Or.inl ⟨fetch, hfetch, by rw [if_pos rfl], by rw [if_pos rfl]; exact hadvances⟩
    · rw [if_neg hi]
      exact Or.inl ⟨old, hold, rfl, .same _⟩
  · rw [hsessions, setPhase, List.length_modify]
  · intro nodeId batch hbatch
    rcases hprocessed with heq | ⟨commands, hphase, heq⟩
    · rw [heq] at hbatch
      exact Or.inl hbatch
    · rw [heq] at hbatch
      rcases List.mem_cons.mp hbatch with hnew | hold
      · cases hnew
        exact Or.inr ⟨session, fetch, hfetch, rfl, hphase⟩
      · exact Or.inl hold
  · rcases hprocessed with heq | ⟨commands, -, heq⟩
    · rw [heq]
      exact List.Subset.refl _
    · rw [heq]
      exact List.subset_cons_self _ _
  · intro nodeId commandId hack
    rcases hacks with heq | ⟨cmd, commands, hphase, hid, heq⟩
    · rw [heq] at hack
      exact Or.inl hack
    · rw [heq] at hack
      rcases List.mem_cons.mp hack with hnew | hold
      · cases hnew
        exact Or.inr ⟨session, fetch, cmd, commands, hfetch, rfl, hphase, rfl, hid⟩
      · exact Or.inl hold

end Progresses

theorem progresses_step {reading : Reading} {s s' : CommandSystem} {event : CommandEvent}
    (hstep : s.step reading event = some s') : Progresses s s' := by
  cases event with
  | tick now =>
      obtain ⟨-, rfl⟩ := tick_inv hstep
      exact .of_eq rfl rfl rfl
  | fetch nodeId =>
      obtain ⟨hid, rfl⟩ := fetch_inv hstep
      exact .of_fetch hid
  | serveGet session =>
      obtain ⟨fetch, -, hs'⟩ := Option.map_eq_some_iff.mp hstep
      rw [← hs']
      exact .of_eq rfl rfl rfl
  | receive session response =>
      obtain ⟨fetch, answer, hfetch, hmem, rfl⟩ := receive_inv hstep
      exact .of_setPhase hfetch rfl (.response _ _ answer hmem rfl) (Or.inl rfl) (Or.inl rfl)
  | callbackReturns session =>
      obtain ⟨fetch, commands, hfetch, hphase, rfl⟩ := callbackReturns_inv hstep
      refine .of_setPhase hfetch rfl ?_ (Or.inr ⟨commands, hphase, rfl⟩) (Or.inl rfl)
      rw [hphase]
      exact .processed commands List.mem_cons_self
  | sendAck session connected =>
      obtain ⟨fetch, cmd, commands, hfetch, hphase, rfl | ⟨hid, rfl⟩⟩ := sendAck_inv hstep
      · refine .of_setPhase hfetch rfl ?_ (Or.inl rfl) (Or.inl rfl)
        rw [hphase]
        exact .acked cmd commands
      · refine .of_setPhase hfetch rfl ?_ (Or.inl rfl) (Or.inr ⟨cmd, commands, hphase, hid, rfl⟩)
        rw [hphase]
        exact .acked cmd commands
  | serveAck nodeId commandId =>
      simp only [step] at hstep
      split at hstep
      · cases hstep
        exact .of_eq rfl rfl rfl
      · cases hstep
  | stop session =>
      cases hstep
      cases hfetch : s.sessions[session]? with
      | none =>
          refine .of_eq ?_ rfl rfl
          exact List.modify_eq_self (by simpa using hfetch)
      | some fetch => exact .of_setPhase hfetch rfl (.ended _) (Or.inl rfl) (Or.inl rfl)

/-! ## An invariant of the server -/

structure Orderly (start s : CommandSystem) : Prop where
  clock : s.now ≠ 0
  times : ∀ d ∈ s.deliveries, d.time ≠ 0 ∧ d.time ≤ s.now
  sessions : ∀ (session : Nat) (fetch : FetchSession), s.sessions[session]? = some fetch →
    fetch.nodeId ≠ []
  acks : ∀ nodeId commandId, (nodeId, commandId) ∈ s.acks → commandId ≠ []
  commands : ∀ nodeId, ((s.server.listOf nodeId).map PendingCommand.cmd).Sublist
    ((start.server.listOf nodeId).map PendingCommand.cmd)
  stamps : ∀ nodeId, ∀ p ∈ s.server.listOf nodeId, Stamped s nodeId p

theorem orderly_fresh {start : CommandSystem} (h : Fresh start) : Orderly start start := by
  refine ⟨h.clock, ?_, ?_, ?_, fun nodeId => List.Sublist.refl _, fun nodeId p hp => ?_⟩
  · simp [h.deliveries]
  · simp [h.sessions]
  · simp [h.acks]
  · obtain ⟨-, hzero⟩ := h.pending nodeId p hp
    refine ⟨?_, ?_, fun hnonzero => absurd hzero hnonzero⟩
    · rw [hzero]
      exact UInt64.zero_le
    · simp [h.deliveries]

theorem cmd_deliver (p : PendingCommand) (now : UInt64) : (p.deliver now).cmd = p.cmd := by
  unfold PendingCommand.deliver
  split <;> rfl

theorem Orderly.eq_of_commandId {start s : CommandSystem} (hfresh : Fresh start)
    (h : Orderly start s) {nodeId : Bytes} {p q : PendingCommand}
    (hp : p ∈ s.server.listOf nodeId) (hq : q ∈ s.server.listOf nodeId)
    (hid : p.cmd.commandId = q.cmd.commandId) : p = q := by
  have hsub := (h.commands nodeId).map ReplicationCommand.commandId
  rw [List.map_map, List.map_map] at hsub
  have hnodup : ((s.server.listOf nodeId).map
      (ReplicationCommand.commandId ∘ PendingCommand.cmd)).Nodup :=
    (hfresh.ids nodeId).sublist hsub
  exact List.inj_on_of_nodup_map hnodup hp hq hid

theorem mem_deliveries_serveGet {reading : Reading} {s : CommandSystem} {session : Nat}
    {nodeId : Bytes} (hanswers : s.server.Answers (reading.get nodeId)) {d : CommandDelivery} :
    d ∈ (s.serveGet reading session nodeId).deliveries ↔
      (∃ p ∈ s.server.listOf (reading.get nodeId), p.awaitsAck s.now = false ∧
        d = ⟨reading.get nodeId, p.cmd.commandId, s.now⟩) ∨ d ∈ s.deliveries := by
  change d ∈ deliveriesOf _ _ (s.server.getCommands s.now (reading.get nodeId)).1 ++ _ ↔ _
  rw [(CommandServer.getCommands_of_answers s.now hanswers).1, List.mem_append]
  simp only [deliveriesOf, List.map_map, List.mem_map, List.mem_filter, Function.comp_apply,
    Bool.not_eq_true']
  constructor
  · rintro (⟨p, ⟨hp, hdue⟩, rfl⟩ | hd)
    · exact Or.inl ⟨p, hp, hdue, rfl⟩
    · exact Or.inr hd
  · rintro (⟨p, hp, hdue, rfl⟩ | hd)
    · exact Or.inl ⟨p, ⟨hp, hdue⟩, rfl⟩
    · exact Or.inr hd

theorem stamped_serveGet {reading : Reading} {start s : CommandSystem} {session : Nat}
    {nodeId n : Bytes} {p : PendingCommand} (hfresh : Fresh start) (h : Orderly start s)
    (hanswers : s.server.Answers (reading.get nodeId))
    (hp : p ∈ (s.serveGet reading session nodeId).server.listOf n) :
    Stamped (s.serveGet reading session nodeId) n p := by
  have hlist := (CommandServer.getCommands_of_answers s.now hanswers).2 n
  change p ∈ (s.server.getCommands s.now (reading.get nodeId)).2.listOf n at hp
  rw [hlist] at hp
  split at hp
  · rename_i hn
    subst hn
    obtain ⟨q, hq, rfl⟩ := List.mem_map.mp hp
    have hstamped := h.stamps _ q hq
    by_cases hawaits : q.awaitsAck s.now = true
    · have hsame : q.deliver s.now = q := by rw [PendingCommand.deliver, if_pos hawaits]
      rw [hsame]
      refine ⟨hstamped.past, fun d hd hnode hcommand => ?_, fun hnonzero => ?_⟩
      · rcases (mem_deliveries_serveGet hanswers).mp hd with ⟨r, hr, hdue, rfl⟩ | hold
        · have heq := h.eq_of_commandId hfresh hr hq hcommand
          rw [heq, hawaits] at hdue
          cases hdue
        · exact hstamped.last d hold hnode hcommand
      · obtain ⟨d, hd, hmatch⟩ := hstamped.delivered hnonzero
        exact ⟨d, (mem_deliveries_serveGet hanswers).mpr (Or.inr hd), hmatch⟩
    · have hnew : q.deliver s.now = { q with deliveredAt := s.now } := by
        rw [PendingCommand.deliver, if_neg hawaits]
      rw [hnew]
      refine ⟨UInt64.le_refl _, fun d hd hnode hcommand => ?_, fun hnonzero => ?_⟩
      · rcases (mem_deliveries_serveGet hanswers).mp hd with ⟨r, hr, hdue, rfl⟩ | hold
        · exact UInt64.le_refl _
        · exact (h.times d hold).2
      · refine ⟨_, (mem_deliveries_serveGet hanswers).mpr (Or.inl ⟨q, hq, ?_, rfl⟩), rfl, rfl, rfl⟩
        simpa using hawaits
  · rename_i hn
    have hstamped := h.stamps n p hp
    refine ⟨hstamped.past, fun d hd hnode hcommand => ?_, fun hnonzero => ?_⟩
    · rcases (mem_deliveries_serveGet hanswers).mp hd with ⟨r, hr, hdue, rfl⟩ | hold
      · exact absurd hnode.symm hn
      · exact hstamped.last d hold hnode hcommand
    · obtain ⟨d, hd, hmatch⟩ := hstamped.delivered hnonzero
      exact ⟨d, (mem_deliveries_serveGet hanswers).mpr (Or.inr hd), hmatch⟩

theorem Stamped.mono {s s' : CommandSystem} {nodeId : Bytes} {p : PendingCommand}
    (h : Stamped s nodeId p) (hdeliveries : s'.deliveries = s.deliveries) (hnow : s.now ≤ s'.now) :
    Stamped s' nodeId p := by
  refine ⟨UInt64.le_trans h.past hnow, ?_, ?_⟩
  · rw [hdeliveries]
    exact h.last
  · rw [hdeliveries]
    exact h.delivered

theorem serveGet_of_not_answers {reading : Reading} {s : CommandSystem} (session : Nat)
    {nodeId : Bytes} (h : ¬ s.server.Answers (reading.get nodeId)) :
    (s.serveGet reading session nodeId).server = s.server ∧
      (s.serveGet reading session nodeId).deliveries = s.deliveries ∧
      ∃ response, (response = .badRequest ∨ response = .notFound) ∧
        (s.serveGet reading session nodeId).responses = s.responses ++ [(session, response)] := by
  obtain ⟨hserver, hresponse⟩ := CommandServer.getCommands_of_not_answers s.now h
  refine ⟨hserver, ?_, _, hresponse, rfl⟩
  change deliveriesOf _ _ (s.server.getCommands s.now (reading.get nodeId)).1 ++ _ = _
  rcases hresponse with hbad | hmissing
  · rw [hbad]
    rfl
  · rw [hmissing]
    rfl

theorem cmds_serveGet (reading : Reading) (s : CommandSystem) (session : Nat) (nodeId n : Bytes) :
    ((s.serveGet reading session nodeId).server.listOf n).map PendingCommand.cmd =
      (s.server.listOf n).map PendingCommand.cmd := by
  by_cases hanswers : s.server.Answers (reading.get nodeId)
  · have hlist := (CommandServer.getCommands_of_answers s.now hanswers).2 n
    change ((s.server.getCommands s.now (reading.get nodeId)).2.listOf n).map _ = _
    rw [hlist]
    split
    · rw [List.map_map]
      simp only [Function.comp_def, cmd_deliver]
    · rfl
  · rw [(serveGet_of_not_answers _ hanswers).1]

theorem listOf_ackCommand_sublist (server : CommandServer) (target commandId n : Bytes) :
    ((server.ackCommand target commandId).2.listOf n).Sublist (server.listOf n) := by
  rw [server.listOf_ackCommand target commandId]
  split
  · exact List.filter_sublist
  · exact List.Sublist.refl _

theorem orderly_step {reading : Reading} {start s s' : CommandSystem} {event : CommandEvent}
    (hfresh : Fresh start) (h : Orderly start s) (hstep : s.step reading event = some s') :
    Orderly start s' := by
  have hprogresses := progresses_step hstep
  have hsessions : ∀ (session : Nat) (fetch : FetchSession), s'.sessions[session]? = some fetch →
      fetch.nodeId ≠ [] := by
    intro session fetch' hfetch'
    rcases hprogresses.sessions session fetch' hfetch' with ⟨fetch, hfetch, hnode, -⟩ | hnew
    · rw [hnode]
      exact h.sessions session fetch hfetch
    · exact hnew.2.1
  have hacks : ∀ nodeId commandId, (nodeId, commandId) ∈ s'.acks → commandId ≠ [] := by
    intro nodeId commandId hack
    rcases hprogresses.acks nodeId commandId hack with hold | ⟨_, _, _, _, _, _, _, _, hid⟩
    · exact h.acks nodeId commandId hold
    · exact hid
  rcases step_cases hstep with ⟨session, fetch, -, -, rfl⟩ | ⟨nodeId, commandId, -, -, rfl⟩ | hquiet
  · have hcommands : ∀ n, (((s.serveGet reading session fetch.nodeId).server.listOf n).map
        PendingCommand.cmd).Sublist ((start.server.listOf n).map PendingCommand.cmd) := by
      intro n
      rw [cmds_serveGet]
      exact h.commands n
    by_cases hanswers : s.server.Answers (reading.get fetch.nodeId)
    · refine ⟨h.clock, fun d hd => ?_, hsessions, hacks, hcommands,
        fun n p hp => stamped_serveGet hfresh h hanswers hp⟩
      rcases (mem_deliveries_serveGet hanswers).mp hd with ⟨p, -, -, rfl⟩ | hold
      · exact ⟨h.clock, UInt64.le_refl _⟩
      · exact h.times d hold
    · obtain ⟨hserver, hdeliveries, -⟩ := serveGet_of_not_answers session hanswers
      refine ⟨h.clock, ?_, hsessions, hacks, hcommands, fun n p hp => ?_⟩
      · rw [hdeliveries]
        exact h.times
      · rw [hserver] at hp
        exact (h.stamps n p hp).mono hdeliveries (UInt64.le_refl _)
  · have hsub := listOf_ackCommand_sublist s.server (reading.ack nodeId) commandId
    refine ⟨h.clock, h.times, hsessions, hacks, fun n => ?_, fun n p hp => ?_⟩
    · exact ((hsub n).map _).trans (h.commands n)
    · exact (h.stamps n p ((hsub n).subset hp)).mono rfl (UInt64.le_refl _)
  · refine ⟨fun hzero => ?_, fun d hd => ?_, hsessions, hacks, ?_, fun n p hp => ?_⟩
    · have hnow := hquiet.now
      rw [hzero, UInt64.le_zero_iff] at hnow
      exact h.clock hnow
    · rw [hquiet.deliveries] at hd
      exact ⟨(h.times d hd).1, UInt64.le_trans (h.times d hd).2 hquiet.now⟩
    · rw [hquiet.server]
      exact h.commands
    · rw [hquiet.server] at hp
      exact (h.stamps n p hp).mono hquiet.deliveries hquiet.now

end CommandSystem

end ElioP2P.Control
