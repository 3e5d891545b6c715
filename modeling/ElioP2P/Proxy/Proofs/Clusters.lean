import ElioP2P.Proxy.Proofs.HonestRequests
import ElioP2P.Proxy.Proofs.HonestStreams

/-!
# A cluster of honest nodes

All connections of a cluster lead from a client to a chunk server of the same
cluster, and the network only delivers what was written.  As long as the origin
is truthful and nothing wrong is put into a cache from outside, every node keeps
to the discipline and may rely on it.
-/

namespace ElioP2P.Cluster

open ElioP2P.Library ElioP2P.Library.Coroutine ElioP2P.Cache ElioP2P.Cache.ChunkManager
open ElioP2P.Proxy
open ElioP2P.P2P hiding Quiet

/-! ## Steps -/

def taskAt (cluster : Cluster) (node id : Nat) : Option (Task nodeSignature) := do
  let sys ← cluster.nodes[node]?
  sys.tasks[id]?

section Steps

variable {H : Sha256} {fuel : Nat} {handler : Nat → RequestHandler} {cluster cluster' : Cluster}
  {event : ClusterEvent} {node id : Nat}

theorem taskAt_eq_some {task : Task nodeSignature} :
    cluster.taskAt node id = some task ↔
      ∃ sys, cluster.nodes[node]? = some sys ∧ sys.tasks[id]? = some task := by
  simp [taskAt, Option.bind_eq_some_iff]

theorem stream_eq_some {k : Nat} {traffic : Traffic} :
    cluster.stream node id k = some traffic ↔
      ∃ task, cluster.taskAt node id = some task ∧
        (streamsOf task.history).all[k]? = some traffic := by
  simp only [stream, Option.bind_eq_bind, Option.bind_eq_some_iff, taskAt_eq_some]
  constructor
  · rintro ⟨sys, hsys, task, htask, hk⟩
    exact ⟨task, ⟨sys, hsys, htask⟩, hk⟩
  · rintro ⟨task, ⟨sys, hsys, htask⟩, hk⟩
    exact ⟨sys, hsys, task, htask, hk⟩

theorem step_cases (h : cluster.step H fuel handler event = some cluster') :
    ∃ node nodeEvent sys sys', cluster.nodes[node]? = some sys ∧
      nodeStep H fuel (handler node) sys nodeEvent = some sys' ∧
      cluster'.nodes = cluster.nodes.set node sys' ∧
      ((event = .node node nodeEvent ∧ cluster'.links = cluster.links) ∨
        ∃ client task stream traffic, event = .accept client task stream node ∧
          nodeEvent = .task (.start .chunkConnection) ∧ stream ≠ 0 ∧
          cluster.stream client task stream = some traffic ∧
          cluster'.links = cluster.links ++ [⟨client, task, stream, node, sys.tasks.length⟩]) := by
  cases event with
  | node node nodeEvent =>
      simp only [step, Option.bind_eq_bind, Option.bind_eq_some_iff, Option.some.injEq] at h
      obtain ⟨sys, hsys, sys', hstep, rfl⟩ := h
      exact ⟨node, nodeEvent, sys, sys', hsys, hstep, rfl, Or.inl ⟨rfl, rfl⟩⟩
  | accept client task stream server =>
      simp only [step, Option.bind_eq_bind, Option.bind_eq_some_iff] at h
      obtain ⟨traffic, htraffic, sys, hsys, sys', hstep, hlink⟩ := h
      split at hlink
      · cases hlink
      · rename_i hfree
        cases hlink
        exact ⟨server, _, sys, sys', hsys, hstep, rfl, Or.inr
          ⟨client, task, stream, traffic, rfl, rfl, fun hzero => hfree (Or.inl hzero), htraffic,
            rfl⟩⟩

/-- A task stays, and at most one event is added to its history. -/
def Continues (sys : System nodeSignature) (nodeEvent : NodeEvent) (id : Nat)
    (task task' : Task nodeSignature) : Prop :=
  task'.job = task.job ∧ (task'.history = task.history ∨ ∃ reply w next r,
    nodeEvent = .task (.resume id reply) ∧ task.rest = .await w next ∧ sys.Gives reply w r ∧
      task'.history = task.history ++ [.of w r])

theorem continues_nodeStep {handler : RequestHandler} {sys sys' : System nodeSignature}
    {nodeEvent : NodeEvent} (hstep : nodeStep H fuel handler sys nodeEvent = some sys')
    {task : Task nodeSignature} (htask : sys.tasks[id]? = some task) :
    ∃ task', sys'.tasks[id]? = some task' ∧ Continues sys nodeEvent id task task' := by
  have hlt := (List.getElem?_eq_some_iff.mp htask).1
  cases nodeEvent with
  | cache op =>
      obtain ⟨cache, -, rfl⟩ := Option.map_eq_some_iff.mp hstep
      exact ⟨task, htask, rfl, Or.inl rfl⟩
  | task action =>
      rcases Program.step_cases hstep with ⟨job, rfl, rfl⟩ |
        ⟨other, reply, old, new, spawned, rfl, hresumes⟩
      · refine ⟨task, ?_, rfl, Or.inl rfl⟩
        rw [List.getElem?_append_left hlt]
        exact htask
      · by_cases hid : id = other
        · subst hid
          have hsame : old = task := Option.some.inj (hresumes.found.symm.trans htask)
          subst hsame
          refine ⟨new, hresumes.getElem?_self, hresumes.job, ?_⟩
          rcases hresumes.wakes with ⟨w, next, r, hrest, hgives, hhistory, -⟩ | ⟨-, -, hhistory, -⟩
          · exact Or.inr ⟨reply, w, next, r, rfl, hrest, hgives, hhistory⟩
          · exact Or.inl hhistory
        · exact ⟨task, hresumes.getElem?_other hid htask, rfl, Or.inl rfl⟩

theorem continues_taskAt {sys sys' : System nodeSignature} {nodeEvent : NodeEvent} {acting : Nat}
    (hsys : cluster.nodes[acting]? = some sys)
    (hstep : nodeStep H fuel (handler acting) sys nodeEvent = some sys')
    (hnodes : cluster'.nodes = cluster.nodes.set acting sys') {task : Task nodeSignature}
    (htask : cluster.taskAt node id = some task) :
    ∃ task', cluster'.taskAt node id = some task' ∧ task'.job = task.job ∧
      (task'.history = task.history ∨ node = acting ∧ Continues sys nodeEvent id task task') := by
  obtain ⟨owner, howner, hfound⟩ := taskAt_eq_some.mp htask
  have hlt := (List.getElem?_eq_some_iff.mp hsys).1
  by_cases hnode : node = acting
  · subst hnode
    cases Option.some.inj (howner.symm.trans hsys)
    obtain ⟨task', htask', hcontinues⟩ := continues_nodeStep hstep hfound
    refine ⟨task', taskAt_eq_some.mpr ⟨sys', ?_, htask'⟩, hcontinues.1, Or.inr ⟨rfl, hcontinues⟩⟩
    rw [hnodes, List.getElem?_set_self hlt]
  · refine ⟨task, taskAt_eq_some.mpr ⟨owner, ?_, hfound⟩, rfl, Or.inl rfl⟩
    rw [hnodes, List.getElem?_set_ne (Ne.symm hnode)]
    exact howner

end Steps

/-! ## The invariant -/

section Sound

variable {A : Terms} {fuel : Nat} {handler : Nat → RequestHandler} {cluster cluster' : Cluster}
  {event : ClusterEvent} {node id : Nat}

/-- The link leads from a stream that was opened to a connection of the chunk
server, which has read nothing else than what was written there. -/
structure Joined (cluster : Cluster) (link : Link) : Prop where
  opened : link.stream ≠ 0
  ends : ∃ traffic task, cluster.stream link.client link.task link.stream = some traffic ∧
    cluster.taskAt link.server link.connection = some task ∧ task.job = .chunkConnection ∧
    (streamsOf task.history).current.received <+: traffic.sent

structure Sound (A : Terms) (cluster : Cluster) : Prop where
  nodes : ∀ sys ∈ cluster.nodes, sys.Follows A.discipline
  links : ∀ link ∈ cluster.links, cluster.Joined link
  apart : ∀ link ∈ cluster.links, ∀ link' ∈ cluster.links, link.server = link'.server →
    link.connection = link'.connection → link = link'

/-- Where the bytes come from that a task may read. -/
theorem written_cases (cluster : Cluster) (node id k : Nat) :
    cluster.written node id k = [] ∨
    (∃ link ∈ cluster.links, link.client = node ∧ link.task = id ∧ link.stream = k ∧
      cluster.written node id k =
        ((cluster.stream link.server link.connection 0).map Traffic.sent).getD []) ∨
    ∃ link ∈ cluster.links, link.server = node ∧ link.connection = id ∧ k = 0 ∧
      cluster.written node id k =
        ((cluster.stream link.client link.task link.stream).map Traffic.sent).getD [] := by
  unfold written farEnd
  cases hclient : cluster.links.find? fun link =>
      link.client = node && link.task = id && link.stream = k with
  | some link =>
      have hfound := List.find?_some hclient
      simp only [Bool.and_eq_true, decide_eq_true_eq] at hfound
      exact Or.inr (Or.inl ⟨link, List.mem_of_find?_eq_some hclient, hfound.1.1, hfound.1.2,
        hfound.2, rfl⟩)
  | none =>
      cases hserver : cluster.links.find? fun link =>
          link.server = node && link.connection = id && k = 0 with
      | some link =>
          have hfound := List.find?_some hserver
          simp only [Bool.and_eq_true, decide_eq_true_eq] at hfound
          exact Or.inr (Or.inr ⟨link, List.mem_of_find?_eq_some hserver, hfound.1.1, hfound.1.2,
            hfound.2, rfl⟩)
      | none => exact Or.inl rfl

namespace Sound

theorem permitted (hsound : cluster.Sound A) {task : Task nodeSignature}
    (htask : cluster.taskAt node id = some task) :
    Permitted A.discipline task.job task.history := by
  obtain ⟨sys, hsys, hfound⟩ := taskAt_eq_some.mp htask
  exact ((hsound.nodes sys (List.mem_of_getElem? hsys)).tasks task (List.mem_of_getElem? hfound)).2

theorem client (hsound : cluster.Sound A) {task : Task nodeSignature} {k : Nat}
    (htask : cluster.taskAt node id = some task) (hk : k ≠ 0) {traffic : Traffic}
    (hstream : (streamsOf task.history).all[k]? = some traffic) : task.job ≠ .chunkConnection := by
  intro hjob
  have hpermitted := hsound.permitted htask
  rw [hjob] at hpermitted
  have hlt := (List.getElem?_eq_some_iff.mp hstream).1
  rw [Streams.all, (answers_of_permitted hpermitted).1] at hlt
  simp at hlt
  exact hk hlt

theorem trusted_connection (hsound : cluster.Sound A) {task : Task nodeSignature}
    (htask : cluster.taskAt node id = some task) (hjob : task.job = .chunkConnection) {read : Bytes}
    (hread : read <+: cluster.written node id (streamsOf task.history).earlier.length) :
    Trusted A.truth A.hash .chunkConnection (streamsOf task.history).current.sent read := by
  have hpermitted := hsound.permitted htask
  rw [hjob] at hpermitted
  rw [(answers_of_permitted hpermitted).1, List.length_nil] at hread
  rcases written_cases cluster node id 0 with hnil | ⟨link, hlink, -, -, hzero, -⟩ |
    ⟨link, hlink, rfl, rfl, -, hwritten⟩
  · rw [hnil, List.prefix_nil] at hread
    rw [hread]
    exact trusted_nil _ _
  · exact absurd hzero (hsound.links link hlink).opened
  · obtain ⟨hopened, traffic, other, hstream, -⟩ := hsound.links link hlink
    rw [hwritten, hstream] at hread
    obtain ⟨client, hclient, hk⟩ := stream_eq_some.mp hstream
    obtain ⟨message, hmessage, hleads⟩ := message_of_permitted (hsound.permitted hclient)
      (hsound.client hclient hopened hk) traffic (List.mem_of_getElem? hk)
    exact ⟨message, hmessage, hread.trans hleads⟩

/-- A client reads what a connection has sent, which had read from this client. -/
theorem trusted_client (hsound : cluster.Sound A) {task : Task nodeSignature}
    (htask : cluster.taskAt node id = some task) (hjob : task.job ≠ .chunkConnection) {read : Bytes}
    (hread : read <+: cluster.written node id (streamsOf task.history).earlier.length) :
    Trusted A.truth A.hash task.job (streamsOf task.history).current.sent read := by
  refine trusted_of_requests hjob fun context hcontext => ?_
  rcases written_cases cluster node id (streamsOf task.history).earlier.length with hnil |
    ⟨link, hlink, rfl, rfl, hk, hwritten⟩ | ⟨link, hlink, rfl, rfl, -, -⟩
  · rw [hnil, List.prefix_nil] at hread
    rw [hread]
    exact trusted_nil _ _
  · obtain ⟨-, traffic, server, hstream, hserver, hserves, hreceived⟩ := hsound.links link hlink
    have hanswers := hsound.permitted hserver
    rw [hserves] at hanswers
    obtain ⟨hone, hsent⟩ := answers_of_permitted hanswers
    have hcurrent : cluster.stream link.server link.connection 0 =
        some (streamsOf server.history).current := by
      refine stream_eq_some.mpr ⟨server, hserver, ?_⟩
      rw [Streams.all, hone]
      rfl
    rw [hwritten, hcurrent] at hread
    have hown : traffic = (streamsOf task.history).current := by
      obtain ⟨own, hown, hplace⟩ := stream_eq_some.mp hstream
      cases Option.some.inj (hown.symm.trans htask)
      rw [hk, Streams.all, List.getElem?_append_right (Nat.le_refl _), Nat.sub_self] at hplace
      exact (Option.some.inj hplace).symm
    rw [hown, hcontext] at hreceived
    rcases hsent with hnil | hanswer
    · have hnone : read = [] := List.prefix_nil.mp (hnil ▸ hread)
      rw [hnone]
      exact trusted_nil _ _
    · exact hanswer.trusted hjob hreceived hread
  · obtain ⟨-, traffic, server, -, hserver, hserves, -⟩ := hsound.links link hlink
    cases Option.some.inj (hserver.symm.trans htask)
    exact absurd hserves hjob

/-- What is read from honest nodes can be trusted. -/
theorem trusted (hsound : cluster.Sound A) {task : Task nodeSignature}
    (htask : cluster.taskAt node id = some task) {read : Bytes}
    (hread : read <+: cluster.written node id (streamsOf task.history).earlier.length) :
    Trusted A.truth A.hash task.job (streamsOf task.history).current.sent read := by
  by_cases hjob : task.job = .chunkConnection
  · rw [hjob]
    exact hsound.trusted_connection htask hjob hread
  · exact hsound.trusted_client htask hjob hread

end Sound

/-! ## What keeps it -/

def StoresRight (T : Truth) : ChunkManager.Op → Prop
  | .store chunkId data => T.right chunkId data
  | .storeWithMetadata metadata data => T.right metadata.chunkId data
  | _ => True

/-- The origin is truthful, jobs are started that may be, and nothing wrong is put
into a cache from outside. -/
def Honest (A : Terms) (cluster : Cluster) : ClusterEvent → Prop
  | .node node (.task (.start job)) => ∀ sys ∈ cluster.nodes[node]?, A.Startable job sys.shared
  | .node _ (.task (.resume _ reply)) => ∀ e, A.origin e (reply e)
  | .node _ (.cache op) => StoresRight A.truth op
  | .accept _ _ _ _ => True

theorem copies_apply {T : Truth} {H : Sha256} {s s' : ChunkManager} {op : ChunkManager.Op}
    (hs : s.fileSystem.Faultless) (hcopies : ∀ id data, Copy s id data → T.right id data)
    (hop : StoresRight T op) (happly : s.apply H fuel op = some s') :
    ∀ id data, Copy s' id data → T.right id data := by
  intro id data hcopy
  cases op with
  | store chunkId stored =>
      obtain ⟨ok, hstore⟩ := exists_of_map_snd happly
      rcases (storeChunk_spec hs hstore).2.1 id data hcopy with ⟨hfile, rfl⟩ | hold
      · exact T.sameFile hfile hop
      · exact hcopies id data hold
  | storeWithMetadata metadata stored =>
      obtain ⟨ok, hstore⟩ := exists_of_map_snd happly
      rcases copy_of_store hs hstore hcopy with ⟨hfile, rfl⟩ | hold
      · exact T.sameFile hfile hop
      · exact hcopies id data hold
  | get chunkId =>
      obtain ⟨chunk, hget⟩ := exists_of_map_snd happly
      exact hcopies id data (copy_of_getChunk hget hcopy)
  | remove chunkId =>
      cases happly
      exact hcopies id data (copy_of_removeChunk hcopy).1
  | promote chunkId =>
      obtain ⟨ok, hpromote⟩ := exists_of_map_snd happly
      exact hcopies id data (copy_of_promoteToMemory hpromote hcopy)
  | demote chunkId =>
      cases happly
      rcases copy_of_demoteToDisk hs hcopy with hold | ⟨hfile, hmemory⟩
      · exact hcopies id data hold
      · exact T.sameFile hfile (hcopies chunkId data (Or.inl hmemory))
  | evict => exact hcopies id data (copy_of_triggerEviction happly hcopy)
  | updateMetadata metadata =>
      cases happly
      exact hcopies id data (copy_of_updateMetadata hcopy)
  | openDisk =>
      cases happly
      exact hcopies id data (copy_of_initializeDiskCache hcopy)

theorem Delivers.read {acting : Nat} {sys : System nodeSignature} {task : Task nodeSignature}
    {reply : (e : External) → e.Answer} {n : Nat}
    {next} (hdelivers : cluster.Delivers (.node acting (.task (.resume id reply))))
    (hsys : cluster.nodes[acting]? = some sys) (htask : sys.tasks[id]? = some task)
    (hrest : task.rest = .await (.external (.streamRead n)) next) :
    (streamsOf task.history).current.received ++ (reply (.streamRead n)).val <+:
      cluster.written acting id (streamsOf task.history).earlier.length := by
  refine hdelivers sys hsys task htask n ?_
  rw [Option.mem_def, readSize?, hrest]

namespace Sound

theorem follows_acting {acting : Nat} {sys sys' : System nodeSignature} {nodeEvent : NodeEvent}
    (hentry : ∀ node, (nodeProgram A.hash fuel (handler node)).Enters A.discipline A.Startable)
    (hsound : cluster.Sound A) (hhonest : Honest A cluster (.node acting nodeEvent))
    (hdelivers : cluster.Delivers (.node acting nodeEvent))
    (hsys : cluster.nodes[acting]? = some sys)
    (hstep : nodeStep A.hash fuel (handler acting) sys nodeEvent = some sys') :
    sys'.Follows A.discipline := by
  have hfollows := hsound.nodes sys (List.mem_of_getElem? hsys)
  cases nodeEvent with
  | cache op =>
      obtain ⟨cache, happly, rfl⟩ := Option.map_eq_some_iff.mp hstep
      have hupright : Upright A.truth sys.shared := hfollows.shared
      refine ⟨⟨hupright.owned, (sameSetup_apply happly).faultless hupright.faultless,
        copies_apply hupright.faultless hupright.copies hhonest happly⟩, fun task htask => ?_⟩
      obtain ⟨htask', hpermitted⟩ := hfollows.tasks task htask
      exact ⟨htask'.changed fun _ _ howns => howns, hpermitted⟩
  | task action =>
      refine (hfollows.step (hentry acting) startable_stable (fun _ _ _ _ hspawns => hspawns)
        ?_ ?_ hstep).1
      · rintro job rfl
        exact hhonest sys hsys
      · rintro id reply task w next r rfl htask hrest hgives
        cases w with
        | spawn job => trivial
        | join child job =>
            obtain ⟨history, hexchanges, hends⟩ := hfollows.joined hgives
            exact ⟨history, hexchanges, hends⟩
        | external e =>
            cases hgives
            have horigin := hhonest e
            cases e with
            | streamRead n =>
                exact hsound.trusted (taskAt_eq_some.mpr ⟨sys, hsys, htask⟩)
                  (hdelivers.read hsys htask hrest)
            | _ => exact horigin

section Step

variable {acting : Nat} {sys sys' : System nodeSignature} {nodeEvent : NodeEvent}
  (hsound : cluster.Sound A) (hsys : cluster.nodes[acting]? = some sys)
  (hstep : nodeStep A.hash fuel (handler acting) sys nodeEvent = some sys')
  (hnodes : cluster'.nodes = cluster.nodes.set acting sys')
include hsys hstep hnodes

theorem stream_kept {k : Nat} {traffic : Traffic}
    (hstream : cluster.stream node id k = some traffic) :
    ∃ traffic', cluster'.stream node id k = some traffic' ∧ traffic.sent <+: traffic'.sent := by
  obtain ⟨task, htask, hk⟩ := stream_eq_some.mp hstream
  obtain ⟨task', htask', -, hhistory⟩ := continues_taskAt hsys hstep hnodes htask
  have hsame : task'.history = task.history →
      ∃ traffic', cluster'.stream node id k = some traffic' ∧ traffic.sent <+: traffic'.sent := by
    intro heq
    rw [← heq] at hk
    exact ⟨traffic, stream_eq_some.mpr ⟨task', htask', hk⟩, List.prefix_rfl⟩
  rcases hhistory with heq | ⟨-, -, heq | ⟨_, w, _, r, -, -, -, heq⟩⟩
  · exact hsame heq
  · exact hsame heq
  · obtain ⟨traffic', hk', hsent⟩ := stream_concat hk (.of w r)
    rw [← heq] at hk'
    exact ⟨traffic', stream_eq_some.mpr ⟨task', htask', hk'⟩, hsent⟩

include hsound

theorem link_kept
    (hdelivers : cluster.Delivers (.node acting nodeEvent)) {link : Link}
    (hlink : link ∈ cluster.links) : cluster'.Joined link := by
  obtain ⟨hopened, traffic, task, hstream, htask, hjob, hreceived⟩ := hsound.links link hlink
  obtain ⟨traffic', hstream', hsent⟩ := stream_kept hsys hstep hnodes hstream
  obtain ⟨task', htask', hjob', hhistory⟩ := continues_taskAt hsys hstep hnodes htask
  refine ⟨hopened, traffic', task', hstream', htask', hjob'.trans hjob, ?_⟩
  refine List.IsPrefix.trans ?_ hsent
  rcases hhistory with heq | ⟨hacting, -, heq | ⟨reply, w, next, r, hevent, hrest, hgives, heq⟩⟩
  · rwa [heq]
  · rwa [heq]
  · rw [heq]
    rcases streamsOf_concat_cases task.history (.of w r) with hsame | ⟨address, port, -, hsame⟩ |
      ⟨n, bytes, hexchange, hsame⟩ | ⟨bytes, count, -, hsame⟩ | hsame
    · rwa [hsame]
    · rw [hsame]
      exact List.nil_prefix
    · have hw : w = .external (.streamRead n) := by
        rw [← Event.wait_of w r, hexchange]
        rfl
      subst hw
      cases hexchange
      cases hgives
      obtain ⟨owner, howner, hfound⟩ := taskAt_eq_some.mp htask
      rw [hacting] at howner
      cases Option.some.inj (howner.symm.trans hsys)
      subst hevent
      have hleads := hdelivers.read hsys hfound hrest
      have hpermitted := hsound.permitted htask
      rw [hjob] at hpermitted
      rw [(answers_of_permitted hpermitted).1, List.length_nil, ← hacting] at hleads
      rw [hsame]
      rcases written_cases cluster link.server link.connection 0 with hnil |
        ⟨other, hother, -, -, hzero, -⟩ | ⟨other, hother, hserver, hconnection, -, hwritten⟩
      · rw [hnil] at hleads
        exact hleads.trans List.nil_prefix
      · exact absurd hzero (hsound.links other hother).opened
      · rw [hsound.apart other hother link hlink hserver hconnection] at hwritten
        rw [hwritten, hstream] at hleads
        exact hleads
    · rwa [hsame]
    · rwa [hsame]

omit hsys hstep in
theorem nodes_kept (hfollows : sys'.Follows A.discipline) :
    ∀ other ∈ cluster'.nodes, other.Follows A.discipline := by
  intro other hother
  rw [hnodes] at hother
  rcases List.mem_or_eq_of_mem_set hother with hold | rfl
  · exact hsound.nodes other hold
  · exact hfollows

end Step

section Accept

variable {acting : Nat} {sys sys' : System nodeSignature}

theorem joined_accepted {client task stream : Nat} {traffic : Traffic}
    (hsys : cluster.nodes[acting]? = some sys)
    (hstep : nodeStep A.hash fuel (handler acting) sys (.task (.start .chunkConnection)) =
      some sys')
    (hnodes : cluster'.nodes = cluster.nodes.set acting sys') (hopened : stream ≠ 0)
    (hstream : cluster.stream client task stream = some traffic) :
    cluster'.Joined ⟨client, task, stream, acting, sys.tasks.length⟩ := by
  obtain ⟨traffic', hstream', -⟩ := stream_kept hsys hstep hnodes hstream
  have hstarted : sys' = { sys with tasks := sys.tasks ++
      [(nodeProgram A.hash fuel (handler acting)).newTask .chunkConnection] } :=
    (Option.some.inj hstep).symm
  refine ⟨hopened, traffic', (nodeProgram A.hash fuel (handler acting)).newTask .chunkConnection,
    hstream', taskAt_eq_some.mpr ⟨sys', ?_, ?_⟩, rfl, List.nil_prefix⟩
  · rw [hnodes, List.getElem?_set_self (List.getElem?_eq_some_iff.mp hsys).1]
  · rw [hstarted]
    exact List.getElem?_concat_length

theorem connection_ne (hsound : cluster.Sound A) (hsys : cluster.nodes[acting]? = some sys) :
    ∀ link ∈ cluster.links, link.server = acting → link.connection ≠ sys.tasks.length := by
  rintro link hlink rfl heq
  obtain ⟨-, _, other, -, htask, -⟩ := hsound.links link hlink
  obtain ⟨owner, howner, hfound⟩ := taskAt_eq_some.mp htask
  cases Option.some.inj (howner.symm.trans hsys)
  have hlt := (List.getElem?_eq_some_iff.mp hfound).1
  omega

theorem apart_accepted (hsound : cluster.Sound A) {new : Link}
    (hnew : ∀ link ∈ cluster.links, link.server = new.server → link.connection ≠ new.connection) :
    ∀ link ∈ cluster.links ++ [new], ∀ link' ∈ cluster.links ++ [new],
      link.server = link'.server → link.connection = link'.connection → link = link' := by
  intro link hlink link' hlink' hserver hconnection
  rcases List.mem_append.mp hlink with hold | hlast
  · rcases List.mem_append.mp hlink' with hold' | hlast'
    · exact hsound.apart link hold link' hold' hserver hconnection
    · rw [List.mem_singleton.mp hlast'] at hserver hconnection
      exact absurd hconnection (hnew link hold hserver)
  · rcases List.mem_append.mp hlink' with hold' | hlast'
    · rw [List.mem_singleton.mp hlast] at hserver hconnection
      exact absurd hconnection.symm (hnew link' hold' hserver.symm)
    · rw [List.mem_singleton.mp hlast, List.mem_singleton.mp hlast']

end Accept

theorem step
    (hentry : ∀ node, (nodeProgram A.hash fuel (handler node)).Enters A.discipline A.Startable)
    (hsound : cluster.Sound A) (hhonest : Honest A cluster event)
    (hdelivers : cluster.Delivers event)
    (hstep : cluster.step A.hash fuel handler event = some cluster') : cluster'.Sound A := by
  obtain ⟨acting, nodeEvent, sys, sys', hsys, hnode, hnodes, hevent⟩ := step_cases hstep
  rcases hevent with ⟨rfl, hlinks⟩ |
    ⟨client, task, stream, traffic, rfl, rfl, hopened, hstream, hlinks⟩
  · have hfollows := hsound.follows_acting hentry hhonest hdelivers hsys hnode
    refine ⟨hsound.nodes_kept hnodes hfollows, ?_, ?_⟩
    · rw [hlinks]
      exact fun _ hlink => hsound.link_kept hsys hnode hnodes hdelivers hlink
    · rw [hlinks]
      exact hsound.apart
  · have hstarts : Honest A cluster (.node acting (.task (.start .chunkConnection))) :=
      fun _ _ => trivial
    have hfollows := hsound.follows_acting hentry hstarts trivial hsys hnode
    refine ⟨hsound.nodes_kept hnodes hfollows, ?_, ?_⟩
    · intro link hlink
      rw [hlinks] at hlink
      rcases List.mem_append.mp hlink with hold | hlast
      · exact hsound.link_kept hsys hnode hnodes trivial hold
      · rw [List.mem_singleton.mp hlast]
        exact joined_accepted hsys hnode hnodes hopened hstream
    · rw [hlinks]
      exact hsound.apart_accepted (hsound.connection_ne hsys)

theorem initial {nodes : List Node} (hnodes : ∀ s ∈ nodes, Upright A.truth s) :
    (Cluster.initial nodes).Sound A := by
  refine ⟨fun sys hsys => ?_, nofun, nofun⟩
  obtain ⟨s, hs, rfl⟩ := List.mem_map.mp hsys
  exact System.Follows.initial (hnodes s hs)

theorem of_run
    (hentry : ∀ node, (nodeProgram A.hash fuel (handler node)).Enters A.discipline A.Startable)
    {nodes : List Node} (hnodes : ∀ s ∈ nodes, Upright A.truth s) {events : List ClusterEvent}
    (hevents : EveryStep (Cluster.step A.hash fuel handler)
      (fun cluster event => Honest A cluster event ∧ cluster.Delivers event)
      (Cluster.initial nodes) events)
    (hrun : runSteps (Cluster.step A.hash fuel handler) (Cluster.initial nodes) events =
      some cluster) : cluster.Sound A :=
  runSteps_invariant (fun _ _ _ hsound hevent hstep => hsound.step hentry hevent.1 hevent.2 hstep)
    (Sound.initial hnodes) hevents hrun

end Sound

end Sound

end ElioP2P.Cluster
