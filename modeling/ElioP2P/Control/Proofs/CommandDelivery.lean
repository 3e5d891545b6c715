import ElioP2P.Control.Proofs.CommandSteps

/-!
# Delivery of replication commands

The protocol delivers at least once: a command stays on the server until an
acknowledgement for its node names it, and a client acknowledges what its
callback has processed.  That holds for every loss, repetition, delay and crash,
as long as the server takes each request for the node it was sent for.

It does not: the handlers skip one character too many of the path, so that a
request of node `ab` is served from the list of node `b`.
-/

namespace ElioP2P.Control

open ElioP2P.Library

namespace CommandSystem

/-! ## What the protocol promises -/

structure Serves (session : Nat) (nodeId : Bytes) (s s' : CommandSystem) : Prop where
  response : s'.responses = s.responses ++
    [(session, .ok (((s.server.listOf nodeId).filter fun p => s.Due nodeId p).map
      PendingCommand.cmd))]
  stamped : s'.server.listOf nodeId =
    (s.server.listOf nodeId).map fun p =>
      if s.Due nodeId p then { p with deliveredAt := s.now } else p
  others : ∀ n, n ≠ nodeId → s'.server.listOf n = s.server.listOf n

/-- A command leaves a list only through an acknowledgement for its node that
names it, and a `GET` for a registered node serves that node. -/
structure StepSafe (event : CommandEvent) (s s' : CommandSystem) : Prop where
  leaves : ∀ nodeId, ∀ p ∈ s.server.listOf nodeId,
    p.cmd ∉ (s'.server.listOf nodeId).map PendingCommand.cmd →
      event = .serveAck nodeId p.cmd.commandId
  serves : ∀ session fetch, event = .serveGet session → s.sessions[session]? = some fetch →
    s.server.Registered fetch.nodeId → Serves session fetch.nodeId s s'

/-- What is acknowledged was in a batch on which the callback has returned, and
if a command of that name was pending for the node at the start, it is that
one. -/
def AcksFollowCallbacks (start s : CommandSystem) : Prop :=
  ∀ nodeId commandId, (nodeId, commandId) ∈ s.acks →
    ∃ batch, (nodeId, batch) ∈ s.processed ∧ (∃ cmd ∈ batch, cmd.commandId = commandId) ∧
      ∀ p ∈ start.server.listOf nodeId, p.cmd.commandId = commandId → parseCommand p.cmd ∈ batch

/-! ## Requests that are taken for the wrong node -/

def NothingDue (s : CommandSystem) (nodeId : Bytes) : Prop :=
  ∀ p ∈ s.server.listOf nodeId, p.awaitsAck s.now = true

/-- A request is taken for the node it was sent for, or the mistake changes
nothing: a `GET` gets an empty list where an empty list is right, and an
acknowledgement does not find its command. -/
def Fits (reading : Reading) (s : CommandSystem) : CommandEvent → Prop
  | .serveGet session =>
      ∀ fetch, s.sessions[session]? = some fetch → s.server.Registered fetch.nodeId →
        reading.get fetch.nodeId = fetch.nodeId ∨
          s.server.Answers (reading.get fetch.nodeId) ∧
            s.NothingDue (reading.get fetch.nodeId) ∧ s.NothingDue fetch.nodeId
  | .serveAck nodeId commandId =>
      (nodeId, commandId) ∈ s.acks →
        reading.ack nodeId = nodeId ∨ reading.ack nodeId = [] ∨
          ∀ p ∈ s.server.listOf (reading.ack nodeId), p.cmd.commandId ≠ commandId
  | .tick _ | .fetch _ | .receive _ _ | .callbackReturns _ | .sendAck _ _ | .stop _ => True

theorem awaitsAck_of_deliver_eq {p : PendingCommand} {now : UInt64} (hnow : now ≠ 0)
    (h : p.deliver now = p) : p.awaitsAck now = true := by
  by_contra hdue
  rw [PendingCommand.deliver, if_neg hdue] at h
  have htime : p.deliveredAt = now := by rw [← h]
  apply hdue
  rw [PendingCommand.awaitsAck, htime, UInt64.sub_self]
  simp [hnow, commandAckTimeoutSec]

theorem Orderly.due_iff {start s : CommandSystem} (h : Orderly start s) {nodeId : Bytes}
    {p : PendingCommand} (hp : p ∈ s.server.listOf nodeId) :
    (!p.awaitsAck s.now) = decide (s.Due nodeId p) :=
  awaitsAck_iff (fun d hd => (h.times d hd).1) (h.stamps nodeId p hp)

theorem Orderly.dueCommands_eq {start s : CommandSystem} (h : Orderly start s) (nodeId : Bytes) :
    ((s.server.listOf nodeId).filter fun p => !p.awaitsAck s.now) =
      (s.server.listOf nodeId).filter fun p => s.Due nodeId p :=
  List.filter_congr fun _ hp => h.due_iff hp

theorem Orderly.stamped_eq {start s : CommandSystem} (h : Orderly start s) (nodeId : Bytes) :
    ((s.server.listOf nodeId).map fun p => p.deliver s.now) =
      (s.server.listOf nodeId).map fun p =>
        if s.Due nodeId p then { p with deliveredAt := s.now } else p := by
  refine List.map_congr_left fun p hp => ?_
  have hdue := h.due_iff hp
  rw [PendingCommand.deliver]
  by_cases hawaits : p.awaitsAck s.now = true
  · have hnot : ¬ s.Due nodeId p := by
      rw [hawaits] at hdue
      simpa using hdue
    rw [if_pos hawaits, if_neg hnot]
  · have hyes : s.Due nodeId p := by
      rw [Bool.eq_false_iff.mpr hawaits] at hdue
      simpa using hdue
    rw [if_neg hawaits, if_pos hyes]

theorem NothingDue.filter_eq_nil {s : CommandSystem} {nodeId : Bytes} (h : s.NothingDue nodeId) :
    ((s.server.listOf nodeId).filter fun p => !p.awaitsAck s.now) = [] := by
  rw [List.filter_eq_nil_iff]
  intro p hp
  simp [h p hp]

theorem NothingDue.map_deliver {s : CommandSystem} {nodeId : Bytes} (h : s.NothingDue nodeId) :
    ((s.server.listOf nodeId).map fun p => p.deliver s.now) = s.server.listOf nodeId := by
  have hsame : ∀ p ∈ s.server.listOf nodeId, p.deliver s.now = p := by
    intro p hp
    rw [PendingCommand.deliver, if_pos (h p hp)]
  rw [List.map_congr_left hsame, List.map_id']

section ServeGet

variable {reading : Reading} {s : CommandSystem} {nodeId : Bytes}

theorem listOf_serveGet (session : Nat) (hanswers : s.server.Answers (reading.get nodeId))
    (n : Bytes) :
    (s.serveGet reading session nodeId).server.listOf n =
      if n = reading.get nodeId then (s.server.listOf n).map fun p => p.deliver s.now
      else s.server.listOf n :=
  (CommandServer.getCommands_of_answers s.now hanswers).2 n

theorem responses_serveGet (session : Nat) (hanswers : s.server.Answers (reading.get nodeId)) :
    (s.serveGet reading session nodeId).responses = s.responses ++ [(session,
      .ok (((s.server.listOf (reading.get nodeId)).filter fun p => !p.awaitsAck s.now).map
        PendingCommand.cmd))] := by
  rw [← (CommandServer.getCommands_of_answers s.now hanswers).1]
  rfl

theorem nothingDue_of_serves {start : CommandSystem} {session : Nat} (h : Orderly start s)
    (hother : reading.get nodeId ≠ nodeId)
    (hserves : Serves session nodeId s (s.serveGet reading session nodeId)) :
    s.server.Answers (reading.get nodeId) ∧ s.NothingDue (reading.get nodeId) ∧
      s.NothingDue nodeId := by
  have hanswers : s.server.Answers (reading.get nodeId) := by
    by_contra hnot
    obtain ⟨-, -, response, hresponse, hlast⟩ :=
      serveGet_of_not_answers session hnot
    rw [hserves.response] at hlast
    have heq := List.append_cancel_left hlast
    rcases hresponse with rfl | rfl <;> cases heq
  have hdue : s.NothingDue (reading.get nodeId) := by
    have hlist := hserves.others _ hother
    rw [listOf_serveGet session hanswers, if_pos rfl] at hlist
    have heach := List.map_inj_left.mp (hlist.trans (List.map_id' _).symm)
    intro p hp
    exact awaitsAck_of_deliver_eq h.clock (heach p hp)
  refine ⟨hanswers, hdue, fun p hp => ?_⟩
  have hempty := hserves.response
  rw [responses_serveGet session hanswers, hdue.filter_eq_nil, ← h.dueCommands_eq] at hempty
  have hnil : ((s.server.listOf nodeId).filter fun p => !p.awaitsAck s.now) = [] := by
    simpa using hempty
  simpa using List.filter_eq_nil_iff.mp hnil p hp

theorem serves_of_same {start : CommandSystem} {session : Nat} (h : Orderly start s)
    (hsame : reading.get nodeId = nodeId) (hanswers : s.server.Answers (reading.get nodeId)) :
    Serves session nodeId s (s.serveGet reading session nodeId) := by
  refine ⟨?_, ?_, fun n hn => ?_⟩
  · rw [responses_serveGet session hanswers, hsame, h.dueCommands_eq]
  · rw [listOf_serveGet session hanswers, if_pos hsame.symm, h.stamped_eq]
  · rw [listOf_serveGet session hanswers, if_neg (by rw [hsame]; exact hn)]

theorem serves_of_nothingDue {start : CommandSystem} {session : Nat} (h : Orderly start s)
    (hanswers : s.server.Answers (reading.get nodeId)) (htarget : s.NothingDue (reading.get nodeId))
    (hnode : s.NothingDue nodeId) :
    Serves session nodeId s (s.serveGet reading session nodeId) := by
  have hunchanged : ∀ n, (s.serveGet reading session nodeId).server.listOf n =
      s.server.listOf n := by
    intro n
    rw [listOf_serveGet session hanswers]
    split
    · rename_i hn
      rw [hn, htarget.map_deliver]
    · rfl
  refine ⟨?_, ?_, fun n _ => hunchanged n⟩
  · rw [responses_serveGet session hanswers, htarget.filter_eq_nil, ← h.dueCommands_eq,
      hnode.filter_eq_nil]
  · rw [hunchanged, ← h.stamped_eq, hnode.map_deliver]

end ServeGet

/-- A `GET` for a registered node serves it exactly if the server takes it for
that node, or has nothing to hand out either way. -/
theorem serves_iff {reading : Reading} {start s : CommandSystem} {session : Nat} {nodeId : Bytes}
    (h : Orderly start s) (hid : nodeId ≠ []) (hregistered : s.server.Registered nodeId) :
    Serves session nodeId s (s.serveGet reading session nodeId) ↔
      reading.get nodeId = nodeId ∨
        s.server.Answers (reading.get nodeId) ∧ s.NothingDue (reading.get nodeId) ∧
          s.NothingDue nodeId := by
  constructor
  · intro hserves
    by_cases hsame : reading.get nodeId = nodeId
    · exact .inl hsame
    · exact .inr (nothingDue_of_serves h hsame hserves)
  · rintro (hsame | ⟨hanswers, htarget, hnode⟩)
    · refine serves_of_same h hsame ?_
      rw [hsame]
      exact ⟨hid, hregistered⟩
    · exact serves_of_nothingDue h hanswers htarget hnode

theorem leaves_of_cmds {event : CommandEvent} {s s' : CommandSystem}
    (h : ∀ n, (s'.server.listOf n).map PendingCommand.cmd =
      (s.server.listOf n).map PendingCommand.cmd) (nodeId : Bytes) :
    ∀ p ∈ s.server.listOf nodeId, p.cmd ∉ (s'.server.listOf nodeId).map PendingCommand.cmd →
      event = .serveAck nodeId p.cmd.commandId := by
  intro p hp hgone
  rw [h] at hgone
  exact absurd (List.mem_map_of_mem hp) hgone

/-- An acknowledgement removes from the list of its node, exactly if the server
takes it for that node or does not find the command. -/
theorem leaves_serveAck_iff {s : CommandSystem} {target nodeId commandId : Bytes}
    (hid : commandId ≠ []) :
    (∀ n, ∀ p ∈ s.server.listOf n,
      p.cmd ∉ ((s.server.ackCommand target commandId).2.listOf n).map PendingCommand.cmd →
        n = nodeId ∧ p.cmd.commandId = commandId) ↔
      target = nodeId ∨ target = [] ∨
        ∀ p ∈ s.server.listOf target, p.cmd.commandId ≠ commandId := by
  have hlist := s.server.listOf_ackCommand target commandId
  constructor
  · intro hleaves
    by_contra hnot
    obtain ⟨hnode, hempty, hfound⟩ : target ≠ nodeId ∧ target ≠ [] ∧
        ∃ p ∈ s.server.listOf target, p.cmd.commandId = commandId := by
      simpa [not_or] using hnot
    obtain ⟨p, hp, hcommand⟩ := hfound
    refine hnode (hleaves target p hp ?_).1
    rw [hlist, if_pos ⟨rfl, hempty, hid⟩]
    intro hmem
    obtain ⟨q, hq, hcmd⟩ := List.mem_map.mp hmem
    have hkept := (List.mem_filter.mp hq).2
    rw [hcmd, hcommand] at hkept
    simp at hkept
  · intro hfits n p hp hgone
    rw [hlist] at hgone
    split at hgone
    · rename_i hn
      have hcommand : p.cmd.commandId = commandId := by
        by_contra hother
        refine hgone (List.mem_map_of_mem (List.mem_filter.mpr ⟨hp, ?_⟩))
        simpa using hother
      rcases hfits with hnode | hempty | hmissing
      · exact ⟨hn.1.trans hnode, hcommand⟩
      · exact absurd hempty hn.2.1
      · rw [hn.1] at hp
        exact absurd hcommand (hmissing p hp)
    · exact absurd (List.mem_map_of_mem hp) hgone

theorem stepSafe_iff {reading : Reading} {start s : CommandSystem} {event : CommandEvent}
    (h : Orderly start s) :
    (∀ s', s.step reading event = some s' → StepSafe event s s') ↔ Fits reading s event := by
  by_cases hget : ∃ session, event = .serveGet session
  · obtain ⟨session, rfl⟩ := hget
    have hstep : ∀ s' fetch, s.sessions[session]? = some fetch →
        (s.step reading (.serveGet session) = some s' ↔
          s.serveGet reading session fetch.nodeId = s') := by
      intro s' fetch hfetch
      rw [step, hfetch, Option.map_some, Option.some.injEq]
    constructor
    · intro hsafe fetch hfetch hregistered
      have hserves := (hsafe _ ((hstep _ fetch hfetch).mpr rfl)).serves session fetch rfl hfetch
        hregistered
      exact (serves_iff h (h.sessions session fetch hfetch) hregistered).mp hserves
    · intro hfits s' hs'
      obtain ⟨fetch, hfetch, rfl⟩ := Option.map_eq_some_iff.mp hs'
      refine ⟨leaves_of_cmds (cmds_serveGet reading s session fetch.nodeId), ?_⟩
      intro session' fetch' hevent hfetch' hregistered
      cases hevent
      rw [hfetch] at hfetch'
      cases hfetch'
      exact (serves_iff h (h.sessions session fetch hfetch) hregistered).mpr
        (hfits fetch hfetch hregistered)
  · have hserves : ∀ s' session fetch, event = .serveGet session →
        s.sessions[session]? = some fetch → s.server.Registered fetch.nodeId →
          Serves session fetch.nodeId s s' :=
      fun _ session _ hevent => absurd ⟨session, hevent⟩ hget
    by_cases hack : ∃ nodeId commandId, event = .serveAck nodeId commandId
    · obtain ⟨nodeId, commandId, rfl⟩ := hack
      simp only [step, Fits]
      by_cases hsent : (nodeId, commandId) ∈ s.acks
      · have hid := h.acks nodeId commandId hsent
        rw [if_pos hsent, ← leaves_serveAck_iff hid]
        constructor
        · intro hsafe _ n p hp hgone
          have hevent := (hsafe _ rfl).leaves n p hp hgone
          cases hevent
          exact ⟨rfl, rfl⟩
        · intro hleaves s' hs'
          cases hs'
          refine ⟨fun n p hp hgone => ?_, fun session fetch hevent =>
            hserves _ session fetch hevent⟩
          obtain ⟨rfl, hcommand⟩ := hleaves hsent n p hp hgone
          rw [hcommand]
      · rw [if_neg hsent]
        exact iff_of_true (fun s' hs' => by cases hs') fun hmem => absurd hmem hsent
    · have hfits : Fits reading s event := by
        cases event with
        | serveGet session => exact absurd ⟨session, rfl⟩ hget
        | serveAck nodeId commandId => exact absurd ⟨nodeId, commandId, rfl⟩ hack
        | _ => trivial
      refine iff_of_true (fun s' hs' => ?_) hfits
      have hquiet := quiet_step (fun session hevent => hget ⟨session, hevent⟩)
        (fun nodeId commandId hevent => hack ⟨nodeId, commandId, hevent⟩) hs'
      refine ⟨leaves_of_cmds fun n => ?_, fun session fetch hevent =>
        hserves _ session fetch hevent⟩
      rw [hquiet.server]

/-! ## Acknowledgements -/

def Heeds (reading : Reading) (s : CommandSystem) : CommandEvent → Prop
  | .serveGet session =>
      ∀ fetch, s.sessions[session]? = some fetch → ¬ s.server.Registered fetch.nodeId →
        s.server.Answers (reading.get fetch.nodeId) → s.NothingDue (reading.get fetch.nodeId)
  | .tick _ | .fetch _ | .receive _ _ | .callbackReturns _ | .sendAck _ _ | .serveAck _ _
  | .stop _ => True

theorem mem_listOf_of_response {reading : Reading} {s : CommandSystem} {session : Nat}
    {fetch : FetchSession} {commands : List ReplicationCommand}
    (hfits : Fits reading s (.serveGet session)) (hheeds : Heeds reading s (.serveGet session))
    (hfetch : s.sessions[session]? = some fetch)
    (hresponse : (s.server.getCommands s.now (reading.get fetch.nodeId)).1 = .ok commands) :
    ∀ cmd ∈ commands, cmd ∈ (s.server.listOf fetch.nodeId).map PendingCommand.cmd := by
  by_cases hanswers : s.server.Answers (reading.get fetch.nodeId)
  · have hcommands := (CommandServer.getCommands_of_answers s.now hanswers).1
    rw [hresponse, CommandsResponse.ok.injEq] at hcommands
    have hcases : reading.get fetch.nodeId = fetch.nodeId ∨
        s.NothingDue (reading.get fetch.nodeId) := by
      by_cases hregistered : s.server.Registered fetch.nodeId
      · exact (hfits fetch hfetch hregistered).imp_right fun hnothing => hnothing.2.1
      · exact Or.inr (hheeds fetch hfetch hregistered hanswers)
    intro cmd hcmd
    rw [hcommands] at hcmd
    rcases hcases with hsame | hnothing
    · rw [hsame] at hcmd
      exact List.map_subset _ (List.filter_subset_self _) hcmd
    · rw [hnothing.filter_eq_nil] at hcmd
      cases hcmd
  · rcases (CommandServer.getCommands_of_not_answers s.now hanswers).2 with hbad | hmissing
    · rw [hbad] at hresponse
      cases hresponse
    · rw [hmissing] at hresponse
      cases hresponse

theorem responses_step {reading : Reading} {s s' : CommandSystem} {event : CommandEvent}
    (hstep : s.step reading event = some s') {r : Nat × CommandsResponse} (hr : r ∈ s'.responses) :
    r ∈ s.responses ∨ ∃ session fetch, event = .serveGet session ∧
      s.sessions[session]? = some fetch ∧
      r = (session, (s.server.getCommands s.now (reading.get fetch.nodeId)).1) := by
  rcases step_cases hstep with ⟨session, fetch, rfl, hfetch, rfl⟩ | ⟨nodeId, commandId, -, -, rfl⟩ |
    hquiet
  · rcases List.mem_append.mp hr with hold | hnew
    · exact Or.inl hold
    · exact Or.inr ⟨session, fetch, rfl, hfetch, List.eq_of_mem_singleton hnew⟩
  · exact Or.inl hr
  · rw [hquiet.responses] at hr
    exact Or.inl hr

def FromStart (start : CommandSystem) (nodeId : Bytes) (cmd : ReplicationCommand) : Prop :=
  ∃ p ∈ start.server.listOf nodeId, parseCommand p.cmd = cmd

structure Faithful (start s : CommandSystem) : Prop where
  inRange : ∀ r ∈ s.responses, r.1 < s.sessions.length
  responses : ∀ (session : Nat) (commands : List ReplicationCommand) (fetch : FetchSession),
    (session, .ok commands) ∈ s.responses → s.sessions[session]? = some fetch →
      ∀ cmd ∈ commands, FromStart start fetch.nodeId (parseCommand cmd)
  calling : ∀ (session : Nat) (fetch : FetchSession) (commands : List ReplicationCommand),
    s.sessions[session]? = some fetch → fetch.phase = .calling commands →
      ∀ cmd ∈ commands, FromStart start fetch.nodeId cmd
  acking : ∀ (session : Nat) (fetch : FetchSession) (commands : List ReplicationCommand),
    s.sessions[session]? = some fetch → fetch.phase = .acking commands →
      ∃ batch, (fetch.nodeId, batch) ∈ s.processed ∧ commands ⊆ batch
  processed : ∀ nodeId batch, (nodeId, batch) ∈ s.processed →
    ∀ cmd ∈ batch, FromStart start nodeId cmd
  acks : ∀ nodeId commandId, (nodeId, commandId) ∈ s.acks →
    ∃ batch, (nodeId, batch) ∈ s.processed ∧ ∃ cmd ∈ batch, cmd.commandId = commandId

theorem faithful_fresh {start : CommandSystem} (h : Fresh start) : Faithful start start := by
  refine ⟨?_, ?_, ?_, ?_, ?_, ?_⟩
  · simp [h.responses]
  · simp [h.responses]
  · simp [h.sessions]
  · simp [h.sessions]
  · simp [h.processed]
  · simp [h.acks]

theorem faithful_step {reading : Reading} {start s s' : CommandSystem} {event : CommandEvent}
    (horderly : Orderly start s) (h : Faithful start s) (hfits : Fits reading s event)
    (hheeds : Heeds reading s event) (hstep : s.step reading event = some s') :
    Faithful start s' := by
  have hprogresses := progresses_step hstep
  refine ⟨fun r hr => ?_, fun session commands fetch' hr hfetch' => ?_,
    fun session fetch' commands hfetch' hphase => ?_,
    fun session fetch' commands hfetch' hphase => ?_, fun nodeId batch hbatch => ?_,
    fun nodeId commandId hack => ?_⟩
  · rcases responses_step hstep hr with hold | ⟨session, fetch, -, hfetch, rfl⟩
    · exact Nat.lt_of_lt_of_le (h.inRange r hold) hprogresses.length
    · obtain ⟨hlt, -⟩ := List.getElem?_eq_some_iff.mp hfetch
      exact Nat.lt_of_lt_of_le hlt hprogresses.length
  · rcases responses_step hstep hr with hold | ⟨i, fetch, rfl, hfetch, heq⟩
    · have hlt := h.inRange _ hold
      rcases hprogresses.sessions session fetch' hfetch' with ⟨fetch, hfetch, hnode, -⟩ | hnew
      · rw [hnode]
        exact h.responses session commands fetch hold hfetch
      · exact absurd hlt (Nat.not_lt.mpr hnew.1)
    · obtain ⟨rfl, hresponse⟩ := Prod.mk.inj heq
      obtain ⟨hlt, -⟩ := List.getElem?_eq_some_iff.mp hfetch
      rcases hprogresses.sessions session fetch' hfetch' with ⟨fetch₀, hfetch₀, hnode, -⟩ | hnew
      · rw [hfetch] at hfetch₀
        cases hfetch₀
        rw [hnode]
        intro cmd hcmd
        have hmem := mem_listOf_of_response hfits hheeds hfetch hresponse.symm cmd hcmd
        obtain ⟨p, hp, rfl⟩ := List.mem_map.mp ((horderly.commands _).subset hmem)
        exact ⟨p, hp, rfl⟩
      · exact absurd hlt (Nat.not_lt.mpr hnew.1)
  · rcases hprogresses.sessions session fetch' hfetch' with ⟨fetch, hfetch, hnode, hadvances⟩ | hnew
    · rw [hphase] at hadvances
      rw [hnode]
      rcases hadvances.calling with hold | ⟨answer, hmem, rfl⟩
      · exact h.calling session fetch commands hfetch hold
      · intro cmd hcmd
        obtain ⟨sent, hsent, rfl⟩ := List.mem_map.mp hcmd
        exact h.responses session answer fetch hmem hfetch sent hsent
    · rw [hnew.2.2] at hphase
      cases hphase
  · rcases hprogresses.sessions session fetch' hfetch' with ⟨fetch, hfetch, hnode, hadvances⟩ | hnew
    · rw [hphase] at hadvances
      rw [hnode]
      rcases hadvances.acking with hold | hmem | ⟨cmd, hold⟩
      · obtain ⟨batch, hbatch, hsub⟩ := h.acking session fetch commands hfetch hold
        exact ⟨batch, hprogresses.kept hbatch, hsub⟩
      · exact ⟨commands, hmem, List.Subset.refl _⟩
      · obtain ⟨batch, hbatch, hsub⟩ := h.acking session fetch _ hfetch hold
        exact ⟨batch, hprogresses.kept hbatch,
          List.Subset.trans (List.subset_cons_self cmd commands) hsub⟩
    · rw [hnew.2.2] at hphase
      cases hphase
  · rcases hprogresses.processed nodeId batch hbatch with hold | ⟨session, fetch, hfetch,
      rfl, hcalling⟩
    · exact h.processed nodeId batch hold
    · exact h.calling session fetch batch hfetch hcalling
  · rcases hprogresses.acks nodeId commandId hack with
      hold | ⟨session, fetch, cmd, commands, hfetch, rfl, hphase, hid, -⟩
    · obtain ⟨batch, hbatch, hcmd⟩ := h.acks nodeId commandId hold
      exact ⟨batch, hprogresses.kept hbatch, hcmd⟩
    · obtain ⟨batch, hbatch, hsub⟩ := h.acking session fetch _ hfetch hphase
      exact ⟨batch, hprogresses.kept hbatch, cmd, hsub List.mem_cons_self, hid⟩

theorem Faithful.acksFollowCallbacks {start s : CommandSystem} (hfresh : Fresh start)
    (h : Faithful start s) : AcksFollowCallbacks start s := by
  intro nodeId commandId hack
  obtain ⟨batch, hbatch, cmd, hcmd, hid⟩ := h.acks nodeId commandId hack
  refine ⟨batch, hbatch, ⟨cmd, hcmd, hid⟩, fun p hp hcommand => ?_⟩
  obtain ⟨q, hq, rfl⟩ := h.processed nodeId batch hbatch cmd hcmd
  have hsame : q = p := List.inj_on_of_nodup_map (hfresh.ids nodeId) hq hp (hid.trans hcommand.symm)
  rw [← hsame]
  exact hcmd

/-! ## Runs -/

/-- With any reading of the paths: the steps of a run are safe exactly if the
requests fit, and then the clients acknowledge what they have processed. -/
theorem safe_iff_fits (reading : Reading) {start : CommandSystem} (hfresh : Fresh start)
    (events : List CommandEvent) :
    (EveryStep (step reading) (fun s event => ∀ s', s.step reading event = some s' →
        StepSafe event s s') start events ↔
      EveryStep (step reading) (Fits reading) start events) ∧
    (EveryStep (step reading) (fun s event => Fits reading s event ∧ Heeds reading s event)
        start events →
      ∀ s', runSteps (step reading) start events = some s' → AcksFollowCallbacks start s') := by
  constructor
  · exact everyStep_congr (J := Orderly start) (fun s event s' h hstep =>
      orderly_step hfresh h hstep)
      (fun s event h => stepSafe_iff h) (orderly_fresh hfresh)
  · intro hfits s' hrun
    have hboth := runSteps_invariant (I := fun s => Orderly start s ∧ Faithful start s)
      (fun s event s' h hevent hstep => ⟨orderly_step hfresh h.1 hstep,
        faithful_step h.1 h.2 hevent.1 hevent.2 hstep⟩)
      ⟨orderly_fresh hfresh, faithful_fresh hfresh⟩ hfits hrun
    exact hboth.2.acksFollowCallbacks hfresh

/-- If node ids are read back as they were sent, the protocol keeps its promise
in every run. -/
theorem safe_of_read_back {reading : Reading}
    (hread : ∀ nodeId, reading.get nodeId = nodeId ∧ reading.ack nodeId = nodeId)
    {start : CommandSystem} (hfresh : Fresh start) (events : List CommandEvent) :
    EveryStep (step reading) (fun s event => ∀ s', s.step reading event = some s' →
        StepSafe event s s') start events ∧
      ∀ s', runSteps (step reading) start events = some s' → AcksFollowCallbacks start s' := by
  have hfits : ∀ s event, Fits reading s event := by
    intro s event
    cases event with
    | serveGet session => exact fun fetch _ _ => Or.inl (hread fetch.nodeId).1
    | serveAck nodeId commandId => exact fun _ => Or.inl (hread nodeId).2
    | _ => trivial
  have hheeds : ∀ s event, Heeds reading s event := by
    intro s event
    cases event with
    | serveGet session =>
        intro fetch _ hunregistered hanswers
        rw [(hread fetch.nodeId).1] at hanswers
        exact absurd hanswers.2 hunregistered
    | _ => trivial
  have hall : ∀ P : CommandSystem → CommandEvent → Prop, (∀ s event, P s event) →
      EveryStep (step reading) P start events :=
    fun P hP => (EveryStep.of_forall (Q := fun _ => True) fun _ _ => trivial).mono
      fun s event _ => hP s event
  obtain ⟨hiff, hacks⟩ := safe_iff_fits reading hfresh events
  exact ⟨hiff.mpr (hall _ hfits), hacks (hall _ fun s event => ⟨hfits s event, hheeds s event⟩)⟩

/-- The code: the steps of a run are safe exactly if taking requests for the
wrong node has no effect in them. -/
theorem commandDelivery_iff {start : CommandSystem} (hfresh : Fresh start)
    (events : List CommandEvent) :
    (EveryStep (step .code) (fun s event => ∀ s', s.step .code event = some s' →
        StepSafe event s s') start events ↔
      EveryStep (step .code) (Fits .code) start events) ∧
    (EveryStep (step .code) (fun s event => Fits .code s event ∧ Heeds .code s event)
        start events →
      ∀ s', runSteps (step .code) start events = some s' → AcksFollowCallbacks start s') :=
  safe_iff_fits .code hfresh events

def sampleRegistry : ControlPlaneServer :=
  let s := ((ControlPlaneServer.new 10).registerNode 1 { nodeId := ascii "ab", address := [] }).2
  (s.registerNode 1 { nodeId := ascii "b", address := [] }).2

def sampleCommand : ReplicationCommand where
  commandId := ascii "x"
  chunkId := ascii "c"
  action := ascii "evict"
  sourceNodeId := []
  targetNodeId := []

def sampleStart (nodeId : Bytes) : CommandSystem where
  server := ⟨sampleRegistry, AList.insert nodeId [{ cmd := sampleCommand }] ∅⟩
  now := 1000

theorem fresh_sampleStart (nodeId : Bytes) : Fresh (sampleStart nodeId) := by
  have hlist : ∀ n, (sampleStart nodeId).server.listOf n =
      if n = nodeId then [{ cmd := sampleCommand }] else [] :=
    fun n => CommandServer.listOf_insert ⟨sampleRegistry, ∅⟩ nodeId n [{ cmd := sampleCommand }]
  have hclock : (1000 : UInt64) ≠ 0 := by decide
  refine ⟨hclock, rfl, rfl, rfl, rfl, rfl, fun n => ?_, fun n p hp => ?_⟩
  · rw [hlist]
    split
    · exact List.nodup_singleton _
    · exact List.nodup_nil
  · rw [hlist] at hp
    split at hp
    · rw [List.eq_of_mem_singleton hp]
      exact ⟨by decide, rfl⟩
    · cases hp

def idleFetch : List CommandEvent := [.fetch (ascii "ab"), .serveGet 0, .receive 0 0]

theorem commandDelivery_idleFetch :
    EveryStep (step .code) (fun s event => ∀ s', s.step .code event = some s' →
        StepSafe event s s') (sampleStart (ascii "z")) idleFetch ∧
      ∃ s', runSteps (step .code) (sampleStart (ascii "z")) idleFetch = some s' ∧
        s'.responses = [(0, .ok [])] ∧ AcksFollowCallbacks (sampleStart (ascii "z")) s' := by
  have hget : ∀ s : CommandSystem, s.server = (sampleStart (ascii "z")).server →
      s.sessions = [{ nodeId := ascii "ab" }] →
        Fits .code s (.serveGet 0) ∧ Heeds .code s (.serveGet 0) := by
    intro s hserver hsessions
    have hread : Reading.code.get (ascii "ab") = ascii "b" := by decide
    have hnone : ∀ n, n = ascii "ab" ∨ n = ascii "b" → s.NothingDue n := by
      intro n hn p hp
      rw [hserver] at hp
      rcases hn with rfl | rfl
      · exact absurd hp (List.not_mem_nil)
      · exact absurd hp (List.not_mem_nil)
    refine ⟨fun fetch hfetch _ => ?_, fun fetch hfetch _ _ => ?_⟩
    · rw [hsessions] at hfetch
      cases hfetch
      rw [hread]
      refine Or.inr ⟨⟨by decide, ?_⟩, hnone _ (Or.inr rfl), hnone _ (Or.inl rfl)⟩
      rw [CommandServer.Registered, hserver]
      decide
    · rw [hsessions] at hfetch
      cases hfetch
      rw [hread]
      exact hnone _ (Or.inr rfl)
  have hfits : EveryStep (step .code) (fun s event => Fits .code s event ∧ Heeds .code s event)
      (sampleStart (ascii "z")) idleFetch :=
    ⟨⟨trivial, trivial⟩, hget _ rfl rfl, ⟨trivial, trivial⟩, trivial⟩
  obtain ⟨hsafe, hacks⟩ := commandDelivery_iff (fresh_sampleStart (ascii "z")) idleFetch
  refine ⟨hsafe.mpr (hfits.mono fun _ _ h => h.1), _, rfl, by decide, hacks hfits _ rfl⟩

def strayAck : List CommandEvent :=
  [.fetch (ascii "ab"), .serveGet 0, .receive 0 0, .callbackReturns 0, .sendAck 0 true]

/-- The command of `b` is gone, and no client of `b` has ever asked for it. -/
theorem not_stepSafe_strayAck :
    ∃ s s', runSteps (step .code) (sampleStart (ascii "b")) strayAck = some s ∧
      s.step .code (.serveAck (ascii "ab") (ascii "x")) = some s' ∧
      (∀ fetch ∈ s.sessions, fetch.nodeId ≠ ascii "b") ∧
      sampleCommand ∈ (s.server.listOf (ascii "b")).map PendingCommand.cmd ∧
      s'.server.listOf (ascii "b") = [] ∧
      ¬ StepSafe (.serveAck (ascii "ab") (ascii "x")) s s' := by
  refine ⟨_, _, rfl, rfl, by decide, by decide, by decide, fun hsafe => ?_⟩
  have hevent := hsafe.leaves (ascii "b") { cmd := sampleCommand, deliveredAt := 1000 } (by decide)
    (by decide)
  revert hevent
  decide

end CommandSystem

end ElioP2P.Control
