import ElioP2P.P2P.Proofs.Contacts
import ElioP2P.P2P.Proofs.Rivals

/-!
# Which candidates are asked

A call that nobody disturbs asks the selected peers, and unless one of them
delivers it asks the other candidates in their order, up to the first one that
delivers.  It returns data exactly if there is a candidate that delivers, unless
an exception leaves it: the call reserves a buffer before it asks anyone, and
with the data in hand it removes its temporary file, whose name may be too long.

Here peers have fixed outcomes: those that deliver do so on every connection,
and from the others no verified response ever comes in.
-/

namespace ElioP2P.P2P

open ElioP2P.Library ElioP2P.Library.Coroutine ElioP2P.Proxy

/-! ## Whom a call should ask -/

section Asked

variable (delivers : PeerNode → Prop) [DecidablePred delivers]

/-- The peers that are asked in turn, up to the first one that delivers. -/
def askedInTurn : List PeerNode → List PeerNode
  | [] => []
  | peer :: peers => if delivers peer then [peer] else peer :: askedInTurn peers

def askedPeers (candidates selected : List PeerNode) : List PeerNode :=
  selected ++ if ∃ peer ∈ selected, delivers peer then []
    else askedInTurn delivers (remaining candidates selected)

variable {delivers}

theorem prefix_askedInTurn (peers : List PeerNode) : askedInTurn delivers peers <+: peers := by
  induction peers with
  | nil => exact List.prefix_refl []
  | cons peer peers ih =>
      unfold askedInTurn
      split
      · exact ⟨peers, rfl⟩
      · exact (List.prefix_cons_inj peer).mpr ih

/-- Peers that have been tried one by one are the ones that should be asked if
only the last one delivers, or none does and there is nobody left. -/
theorem eq_askedInTurn (delivers : PeerNode → Prop) [DecidablePred delivers]
    {peers tried : List PeerNode} (horder : tried <+: peers)
    (hfailed : ∀ peer ∈ tried.dropLast, ¬delivers peer)
    (hlast : (∃ peer, tried.getLast? = some peer ∧ delivers peer) ∨
      tried = peers ∧ ∀ peer ∈ peers, ¬delivers peer) :
    tried = askedInTurn delivers peers := by
  induction tried generalizing peers with
  | nil =>
      rcases hlast with ⟨peer, hnone, -⟩ | ⟨rfl, -⟩
      · cases hnone
      · rfl
  | cons peer tried ih =>
      obtain ⟨later, rfl⟩ := horder
      rw [List.cons_append, askedInTurn]
      cases tried with
      | nil =>
          rcases hlast with ⟨last, hsome, hd⟩ | ⟨hall, hnobody⟩
          · rw [List.getLast?_singleton, Option.some.injEq] at hsome
            rw [if_pos (hsome ▸ hd)]
          · rw [if_neg (hnobody peer (by simp)), show later = [] by simpa using hall]
            rfl
      | cons next rest =>
          have hpeer : ¬delivers peer := hfailed peer (by simp)
          rw [if_neg hpeer]
          refine congrArg (peer :: ·) (ih ⟨later, rfl⟩ (fun other hother => ?_) ?_)
          · apply hfailed other
            rw [List.dropLast_cons_cons]
            exact List.mem_cons_of_mem _ hother
          · rcases hlast with ⟨last, hsome, hd⟩ | ⟨hall, hnobody⟩
            · exact Or.inl ⟨last, by rwa [List.getLast?_cons_cons] at hsome, hd⟩
            · refine Or.inr ⟨?_, fun other hother => hnobody other (List.mem_cons_of_mem _ hother)⟩
              simpa using hall

theorem askedPeers_of_supplier {candidates selected : List PeerNode}
    (h : ∃ peer ∈ selected, delivers peer) :
    askedPeers delivers candidates selected = selected := by
  rw [askedPeers, if_pos h, List.append_nil]

theorem askedPeers_of_nobody {candidates selected : List PeerNode}
    (h : ∀ peer ∈ selected, ¬delivers peer) : askedPeers delivers candidates selected =
      selected ++ askedInTurn delivers (remaining candidates selected) := by
  rw [askedPeers, if_neg]
  rintro ⟨peer, hpeer, hd⟩
  exact h peer hpeer hd

theorem nodup_askedPeers {candidates selected rest : List PeerNode}
    (hperm : (selected ++ rest).Perm candidates)
    (hnodup : (candidates.map (·.nodeId)).Nodup) :
    ((askedPeers delivers candidates selected).map (·.nodeId)).Nodup := by
  have hall := (hperm.map (·.nodeId)).nodup_iff.mpr hnodup
  rw [List.map_append] at hall
  rw [askedPeers, List.map_append, List.nodup_append']
  refine ⟨hall.of_append_left, ?_, ?_⟩
  · split
    · exact List.nodup_nil
    · have hsub : (askedInTurn delivers (remaining candidates selected)).Sublist candidates :=
        (prefix_askedInTurn _).sublist.trans List.filter_sublist
      exact hnodup.sublist (hsub.map _)
  · split
    · simp
    · intro nodeId hselected hasked
      obtain ⟨peer, hpeer, rfl⟩ := List.mem_map.mp hselected
      obtain ⟨other, hother, hsame⟩ := List.mem_map.mp hasked
      have hremaining := (prefix_askedInTurn _).subset hother
      have hdiffers := List.all_eq_true.mp (List.mem_filter.mp hremaining).2 peer hpeer
      simp [hsame] at hdiffers

end Asked

theorem mem_selected_or_remaining {candidates selected rest : List PeerNode} {peer : PeerNode}
    (hperm : (selected ++ rest).Perm candidates) (hnodup : (candidates.map (·.nodeId)).Nodup)
    (hpeer : peer ∈ candidates) : peer ∈ selected ∨ peer ∈ remaining candidates selected := by
  by_cases htried : ∃ tried ∈ selected, peer.nodeId = tried.nodeId
  · obtain ⟨tried, hmem, hsame⟩ := htried
    have hcandidate := hperm.subset (List.mem_append_left _ hmem)
    have heq := List.inj_on_of_nodup_map hnodup hpeer hcandidate hsame
    exact Or.inl (heq ▸ hmem)
  · refine Or.inr (List.mem_filter.mpr ⟨hpeer, List.all_eq_true.mpr fun tried hmem => ?_⟩)
    simp only [bne_iff_ne, ne_eq]
    exact fun hsame => htried ⟨tried, hmem, hsame⟩

/-! ## Conversations that have delivered -/

theorem foldl_hear {exchanges : List NetExchange} (hquiet : ∀ x ∈ exchanges, isConnect x = false)
    (c : Conversation) : exchanges.foldl Conversation.hear (some c) =
      some { c with received := c.received ++ received exchanges } := by
  induction exchanges generalizing c with
  | nil => simp [received]
  | cons x exchanges ih =>
      have hhear : Conversation.hear (some c) x =
          some { c with received := c.received ++ incoming x } := by
        obtain ⟨e, answer⟩ := x
        cases e with
        | tcpConnect address port => cases hquiet _ List.mem_cons_self
        | _ => rfl
      rw [List.foldl_cons, hhear, ih fun y hy => hquiet y (List.mem_cons_of_mem _ hy)]
      simp [received]

theorem conversation_silent {h : List (Event nodeSignature)} {event : Event nodeSignature}
    (hevent : exchangesOf [event] = []) : conversation (h ++ [event]) = conversation h := by
  rw [conversation, exchangesOf_append, hevent, List.append_nil]
  rfl

section Runs

variable {H : Sha256} {net : Suppliers H} {fuel : Nat} {handler : RequestHandler} {call : Nat}
  {expectedSha256 data : Bytes} {peer : PeerNode}
  {history : List (Event nodeSignature)}

theorem Delivered.conversation
    (hdelivered : Delivered H peer expectedSha256 (exchangesOf history) data) :
    ∃ bytes, conversation history = some ⟨peer.address, peer.port, bytes⟩ ∧
      Verified H expectedSha256 bytes := by
  obtain ⟨hexpected, before, after, heq, hquiet, hcomplete⟩ := hdelivered
  refine ⟨received after, ?_, data, hcomplete, hexpected⟩
  unfold P2P.conversation
  rw [heq, List.foldl_append, List.foldl_cons]
  exact foldl_hear hquiet ⟨peer.address, peer.port, []⟩

theorem Delivered.getLast?_connectsOf
    (hdelivered : Delivered H peer expectedSha256 (exchangesOf history) data) :
    (connectsOf history).getLast? = some (endpoint peer) := by
  obtain ⟨-, before, after, heq, hquiet, -⟩ := hdelivered
  have hnone : after.filterMap connectedTo = [] := by
    refine List.filterMap_eq_nil_iff.mpr fun x hx => ?_
    have hother := hquiet x hx
    obtain ⟨e, answer⟩ := x
    cases e with
    | tcpConnect address port => cases hother
    | _ => rfl
  have hconnects : connectsOf history = before.filterMap connectedTo ++ [endpoint peer] := by
    rw [← hnone]
    unfold connectsOf
    rw [heq, List.filterMap_append]
    rfl
  rw [hconnects]
  exact List.getLast?_concat

/-! ## The setting -/

def Suppliers.Serves (net : Suppliers H) (expectedSha256 : Bytes) (peer : PeerNode) : Prop :=
  net.delivers expectedSha256 peer.address peer.port

noncomputable instance (net : Suppliers H) (expectedSha256 : Bytes) :
    DecidablePred (net.Serves expectedSha256) := Classical.decPred _

/-- From a peer that does not deliver no verified response comes in. -/
def KeepsOut (net : Suppliers H) (expectedSha256 : Bytes) (h : List (Event nodeSignature)) : Prop :=
  ∀ c, conversation h = some c → ¬net.delivers expectedSha256 c.address c.port →
    ¬Verified H expectedSha256 c.received

def PartOf (call : Nat) (sys : System nodeSignature) (id : Nat) : Prop :=
  id = call ∨ ∃ own job, sys.tasks[call]? = some own ∧ .spawned id job ∈ own.history

/-- One of the tasks goes on, and if it is part of the call, the peer that it
talks to keeps to its outcome. -/
def KeepsOutcomes (net : Suppliers H) (call : Nat) (sys : System nodeSignature)
    (action : Action nodeSignature) : Prop :=
  ∃ id reply, action = .resume id reply ∧
    (PartOf call sys id → ∀ task e next, sys.tasks[id]? = some task →
      task.rest = .await (.external e) next →
        net.Answers (expectedOf task.job) task.history ⟨e, reply e⟩ ∧
          KeepsOut net (expectedOf task.job) (task.history ++ [.external ⟨e, reply e⟩]))

/-- If the call begins now, there is no transfer of its chunk, these are its
candidates, and these are the peers that it selects if it comes to its race. -/
def BeginsFresh (call : Nat) (request : TransferRequest) (candidates selected : List PeerNode)
    (sys : System nodeSignature) (action : Action nodeSignature) : Prop :=
  ∀ reply task, action = .resume call reply → sys.tasks[call]? = some task → task.Fresh →
    sys.shared.transfer.activeTransfers.lookup request.chunkId = none ∧
      (findCandidates request sys.shared.transfer sys.shared.discovery).1 = candidates ∧
      ∀ c all racing, (beginDownload request sys.shared).1 = .race c all racing →
        racing = selected

/-- The call has asked whom it should, nobody twice, and has returned data
exactly if one of the candidates delivers. -/
structure Completes (net : Suppliers H) (request : TransferRequest)
    (candidates selected : List PeerNode) (sys : System nodeSignature) (task : Task nodeSignature)
    (data : Option Bytes) : Prop where
  ran : ∃ c, Ran c request.expectedSha256 selected task.history
  contacts : contactsOf sys task.history =
    (askedPeers (net.Serves request.expectedSha256) candidates selected).map endpoint
  once : ((askedPeers (net.Serves request.expectedSha256) candidates selected).map
    (·.nodeId)).Nodup
  complete : data.isSome = true ↔ ∃ peer ∈ candidates, net.Serves request.expectedSha256 peer

def Completed (net : Suppliers H) (call : Nat) (request : TransferRequest)
    (candidates selected : List PeerNode) (sys : System nodeSignature) : Prop :=
  ∃ task data, sys.tasks[call]? = some task ∧ task.result? = some (.chunk data) ∧
    Completes net request candidates selected sys task data

/-! ## The invariant -/

variable {request : TransferRequest} {candidates selected : List PeerNode} {c : Nat}
  {sys sys' : System nodeSignature} {reply : (e : External) → e.Answer} {id : Nat}
  {task task' own : Task nodeSignature} {spawned : List (Task nodeSignature)}

theorem PartOf.before {P : Program nodeSignature}
    (hstep : P.Resumes reply sys sys' id task task' spawned) {id' : Nat}
    (hlt : id' < sys.tasks.length) (h : PartOf call sys' id') : PartOf call sys id' := by
  rcases h with rfl | ⟨own, job, hown, hmem⟩
  · exact Or.inl rfl
  rcases hstep.task_cases hown with ⟨rfl, rfl⟩ | ⟨-, hold⟩ | ⟨-, job', next, -, rfl⟩
  · rcases hstep.spawned_cases hmem with hold | ⟨rfl, -⟩
    · exact Or.inr ⟨task, job, hstep.found, hold⟩
    · exact absurd hlt (Nat.lt_irrefl _)
  · exact Or.inr ⟨own, job, hold, hmem⟩
  · cases hmem

theorem joined_none {job : Job} {result : JobResult}
    (h : (Suppliers.nobody H).Joined none job result) : net.Joined none job result := by
  cases job with
  | downloadFromPeer c peer expectedSha256 =>
      cases result with
      | peerDownload result => exact fun hc => nomatch hc
      | _ => exact h.elim
  | _ => exact h.elim

def EndsFairly (net : Suppliers H) (request : TransferRequest) (candidates selected : List PeerNode)
    (h : List (Event nodeSignature)) (result : JobResult) : Prop :=
  result = .thrown ∨
    ∃ data, result = .chunk data ∧ Fares net request.expectedSha256 candidates selected h data

structure HasBegun (net : Suppliers H) (request : TransferRequest)
    (candidates selected : List PeerNode) (sys : System nodeSignature) (c : Nat)
    (own : Task nodeSignature) : Prop where
  begun : ¬own.Fresh
  returns : own.result? ≠ some .thrown
  selects : ∃ rest, (selected ++ rest).Perm candidates
  owns : own.result? = none → Owns sys.shared.transfer request.chunkId c
  runs : own.Goes (toldSections H) fun h result => result = .thrown ∨
    ∃ data, result = .chunk data ∧ RunsTo H c request.expectedSha256 selected h data
  children : ∀ (id ctx : Nat) peer expectedSha256 child,
    .spawned id (.downloadFromPeer ctx peer expectedSha256) ∈ own.history →
      sys.tasks[id]? = some child → sys.shared.transfer.isStopped c = false →
        Unstopped net c child
  served : Served net c (EndsFairly net request candidates selected) sys own

/-- All other calls are for other chunks, and of their peers nothing is
expected; the call is still to begin or is served. -/
structure Undisturbed (net : Suppliers H) (P : Program nodeSignature) (call : Nat)
    (request : TransferRequest) (candidates selected : List PeerNode)
    (sys : System nodeSignature) : Prop extends Underway (.nobody H) sys where
  tracked : Tracked H P sys
  part : ∀ (id : Nat) task, PartOf call sys id → sys.tasks[id]? = some task →
    Keeps net task ∧ KeepsOut net (expectedOf task.job) task.history
  others : ∀ (id : Nat) task other, sys.tasks[id]? = some task → id ≠ call →
    task.job = .downloadChunk other → other.chunkId ≠ request.chunkId
  call : ∃ own, sys.tasks[call]? = some own ∧ own.job = .downloadChunk request ∧
    (own = P.newTask (.downloadChunk request) ∨
      ∃ c, HasBegun net request candidates selected sys c own)

namespace Undisturbed

theorem hasBegun_begin (h : Undisturbed net (nodeProgram H fuel handler) call request candidates
      selected sys)
    (hstep : (nodeProgram H fuel handler).Resumes reply sys sys' id
      ((nodeProgram H fuel handler).newTask (.downloadChunk request)) task' spawned)
    (hnone : sys.shared.transfer.activeTransfers.lookup request.chunkId = none)
    (hbegins : CanBegin request sys.shared)
    (hcandidates : (findCandidates request sys.shared.transfer sys.shared.discovery).1 = candidates)
    (hraces : ∀ c all racing, (beginDownload request sys.shared).1 = .race c all racing →
      racing = selected)
    (hsafe : ThrowsNothing H id request sys (.resume id reply)) :
    ∃ c, HasBegun net request candidates selected sys' c task' := by
  have hrunning := h.running
  obtain ⟨-, peers, hbegun, hselects⟩ := (beginDownload_cases request sys.shared).resolve_left
    fun hcannot => hcannot.1 hbegins
  obtain rfl := hraces _ _ _ hbegun
  subst hcandidates
  have hactive : ∀ ctx, sys.shared.transfer.activeTransfers.lookup request.chunkId = some ctx →
      sys.shared.transfer.isStopped ctx = false := by
    intro ctx hlookup
    rw [hnone] at hlookup
    cases hlookup
  have hserved : Served net (openContext request sys.shared.transfer).1 (EndsFairly net request
      (findCandidates request sys.shared.transfer sys.shared.discovery).1 peers) sys' task' :=
    served_of_begin hrunning h.truthful hstep hactive (fun history => Or.inl rfl)
      fun history data hcalled => Or.inr ⟨data, rfl, hcalled.fares hrunning _ _ _ hbegun rfl⟩
  have hmeets : ((nodeProgram H fuel handler).entry (.downloadChunk request)).Meets (toldSections H)
      ((toldSections H).Ends fun h result => result = .thrown ∨
        ∃ data, result = .chunk data ∧ RunsTo H (openContext request sys.shared.transfer).1
          request.expectedSha256 peers h data) [] sys.shared sys.shared := by
    refine Meets.seq (meets_downloadChunk_told hrunning hbegun) ?_
    intro h data found s hruns
    exact ⟨trivial, Or.inr ⟨data, rfl, hruns⟩⟩
  have hstops : CallStops H request False (openContext request sys.shared.transfer).1 task'
      sys.shared sys'.shared :=
    callStops_of_begin hstep h.tracked.owned hrunning hbegins
  have howns : task'.result? = none →
      Owns sys'.shared.transfer request.chunkId (openContext request sys.shared.transfer).1 := by
    intro hresult
    rcases hstops with ⟨data, hended, -⟩ | ⟨-, -, -, -, howns, -⟩
    · rw [hresult] at hended
      cases hended
    · exact howns
  rcases hstep.wakes with ⟨w, next, r, hrest, -⟩ | ⟨-, -, hhistory, -, hrun⟩
  · cases hrest
  · have hempty : task'.history = [] := hhistory
    rw [← hempty] at hmeets
    obtain ⟨hruns, -⟩ := Task.goes_of_meets (R := toldSections H)
      (covers_toldSections fun _ => Or.inl rfl) hmeets hrun
    refine ⟨_, hstep.not_fresh, h.tracked.not_thrown hstep rfl hsafe, hselects, howns, hruns,
      fun id ctx peer expected child hmem => ?_,
      hserved⟩
    rw [hempty] at hmem
    cases hmem

section Step

variable (h : Undisturbed net (nodeProgram H fuel handler) call request candidates selected sys)
  (hstep : (nodeProgram H fuel handler).Resumes reply sys sys' id task task' spawned)
include h hstep

/-- Another task changes nothing that concerns the chunk. -/
theorem changes_other (hid : id ≠ call) : ∃ concerned, concerned ≠ request.chunkId ∧
    ChangesOnly concerned sys.shared.transfer sys'.shared.transfer := by
  rcases h.jobs task (List.mem_of_getElem? hstep.found) with ⟨other, hjob⟩ |
    ⟨ctx, peer, expectedSha256, hjob⟩
  · exact ⟨_, h.others id task other hstep.found hid hjob,
      h.tracked.changesOnly hstep (by rw [hjob]; rfl)⟩
  · exact ⟨request.chunkId ++ [0], by simp, h.tracked.changesOnly hstep (by rw [hjob]; trivial)⟩

theorem clear_before (hclear : sys'.shared.transfer.isStopped c = false) :
    sys.shared.transfer.isStopped c = false := by
  cases hstopped : sys.shared.transfer.isStopped c with
  | false => rfl
  | true =>
      obtain ⟨-, hleaves⟩ := h.keeps_step hstep fun _ _ _ => answers_nobody
      rw [hleaves.kept c hstopped] at hclear
      cases hclear

theorem children_step (hanswers : PartOf call sys id → ∀ e next,
      task.rest = .await (.external e) next →
        net.Answers (expectedOf task.job) task.history ⟨e, reply e⟩)
    (hown : sys.tasks[call]? = some own)
    (hbegun : HasBegun net request candidates selected sys c own) {child ctx : Nat}
    {peer : PeerNode} {expected : Bytes} {t : Task nodeSignature}
    (hmem : .spawned child (.downloadFromPeer ctx peer expected) ∈ own.history)
    (ht : sys'.tasks[child]? = some t) (hclear : sys'.shared.transfer.isStopped c = false) :
    Unstopped net c t := by
  replace hclear := h.clear_before hstep hclear
  rcases hstep.task_cases ht with ⟨rfl, rfl⟩ | ⟨-, hold⟩ | ⟨rfl, -⟩
  · have hunstopped := hbegun.children child ctx peer expected task hmem hstep.found hclear
    exact hunstopped.step hstep (hanswers (Or.inr ⟨own, _, hown, hmem⟩)) h.running hclear
  · exact hbegun.children child ctx peer expected t hmem hold hclear
  · obtain ⟨t', ht', -⟩ := h.truthful.spawned own (List.mem_of_getElem? hown) _ _ hmem
    exact absurd (List.getElem?_eq_some_iff.mp ht').1 (Nat.lt_irrefl _)

theorem hasBegun_other (hid : id ≠ call)
    (hanswers : PartOf call sys id → ∀ e next, task.rest = .await (.external e) next →
      net.Answers (expectedOf task.job) task.history ⟨e, reply e⟩)
    (hown : sys.tasks[call]? = some own)
    (hbegun : HasBegun net request candidates selected sys c own) :
    HasBegun net request candidates selected sys' c own := by
  obtain ⟨concerned, hne, hchanges⟩ := h.changes_other hstep hid
  refine ⟨hbegun.begun, hbegun.returns, hbegun.selects, fun hresult => hchanges.owns _ _
    (hbegun.owns hresult),
    hbegun.runs, fun _ _ _ _ _ => h.children_step hstep hanswers hown hbegun,
    served_other hstep hbegun.served fun hclear hraised => ?_⟩
  cases hresult : own.result? with
  | some result => exact Or.inl (by simp)
  | none =>
      have hkept := hchanges.context_kept (hbegun.owns hresult) hne
      unfold TransferManager.isStopped at hclear hraised
      rw [hkept, hclear] at hraised
      cases hraised

theorem hasBegun_self (hid : id = call) (hjob : task.job = .downloadChunk request)
    (hanswers : ∀ e next, task.rest = .await (.external e) next →
      net.Answers (expectedOf task.job) task.history ⟨e, reply e⟩)
    (hsafe : ThrowsNothing H call request sys (.resume id reply))
    (hbegun : HasBegun net request candidates selected sys c task) :
    HasBegun net request candidates selected sys' c task' := by
  subst hid
  have hmem := List.mem_of_getElem? hstep.found
  have hconcerns : Concerns task.job request.chunkId := by
    rw [hjob]
    rfl
  have hchanges := h.tracked.changesOnly hstep hconcerns
  obtain ⟨hruns, -⟩ := Task.Goes.resumes (covers_toldSections fun _ => Or.inl rfl)
    hbegun.runs hstep (fun _ => trivial) fun w next r hrest hgives => h.tracked.told
      (fun child job hw => by
      subst hw
      obtain ⟨s, hwaits⟩ := hbegun.runs.waits hrest
      exact hwaits) hgives
  refine ⟨hstep.not_fresh, h.tracked.not_thrown hstep hjob hsafe, hbegun.selects,
    fun _ => hchanges.owns _ _ (hbegun.owns hstep.unfinished), hruns, ?_, ?_⟩
  · intro child ctx peer expected t hspawned ht hclear
    rcases hstep.spawned_cases hspawned with hold | ⟨rfl, next, hrest⟩
    · exact h.children_step hstep (fun _ => hanswers) hstep.found hbegun hold ht hclear
    · rw [hstep.getElem?_spawned hrest, Option.some.injEq] at ht
      rw [← ht]
      exact (keeps_newDownload ctx peer expected).2 c
  · refine served_self h.running h.truthful hstep hanswers (fun hclear => ?_)
      (fun _ => Or.inl rfl) hbegun.begun hbegun.served
    intro child job next finished hrest hfinished
    obtain ⟨⟨ctx, peer, rfl⟩, hspawned⟩ := h.joins hmem hrest
    obtain ⟨t, ht, htjob, hresult, -⟩ := System.ended_of_finished hfinished
    have hjoined := Task.Goes.ended (hbegun.children child ctx peer _ t hspawned ht hclear) hresult
    rwa [htjob] at hjoined

theorem part_self (hpart : PartOf call sys id)
    (hkeeps : KeepsOutcomes net call sys (.resume id reply)) :
    Keeps net task' ∧ KeepsOut net (expectedOf task'.job) task'.history := by
  obtain ⟨id, reply, heq, hkeeps⟩ := hkeeps
  cases heq
  obtain ⟨hgoes, hbefore⟩ := h.part id task hpart hstep.found
  have hanswers := fun e next => hkeeps hpart task e next hstep.found
  refine ⟨(hgoes.step hstep (fun e next hrest => (hanswers e next hrest).1)
    fun child job next finished hrest hfinished => ?_).1, ?_⟩
  · exact joined_none (h.joined_of_wait (List.mem_of_getElem? hstep.found) (Underway.no_flag sys)
      child job next finished hrest hfinished)
  · rw [hstep.job]
    rcases hstep.wakes with ⟨w, next, r, hrest, hgives, hhistory, -⟩ | ⟨-, -, hhistory, -⟩
    · rw [hhistory]
      cases w with
      | external e =>
          cases hgives
          exact (hanswers e next hrest).2
      | spawn job =>
          unfold KeepsOut
          rwa [conversation_silent rfl]
      | join child job =>
          unfold KeepsOut
          rwa [conversation_silent rfl]
    · rwa [hhistory]

theorem part_step (hkeeps : KeepsOutcomes net call sys (.resume id reply)) (id' : Nat)
    (t : Task nodeSignature) (hpart : PartOf call sys' id') (ht : sys'.tasks[id']? = some t) :
    Keeps net t ∧ KeepsOut net (expectedOf t.job) t.history := by
  rcases hstep.task_cases ht with ⟨rfl, rfl⟩ | ⟨-, hold⟩ | ⟨-, job, next, hrest, rfl⟩
  · exact h.part_self hstep (hpart.before hstep hstep.lt_length) hkeeps
  · exact h.part id' t (hpart.before hstep (List.getElem?_eq_some_iff.mp hold).1) hold
  · obtain ⟨-, c, peer, rfl⟩ := h.spawns (List.mem_of_getElem? hstep.found) hrest
    exact ⟨(keeps_newDownload c peer _).1, fun c hc => nomatch hc⟩

theorem others_step (id' : Nat) (t : Task nodeSignature) (other : TransferRequest)
    (ht : sys'.tasks[id']? = some t) (hid : id' ≠ call) (hjob : t.job = .downloadChunk other) :
    other.chunkId ≠ request.chunkId := by
  rcases hstep.task_cases ht with ⟨rfl, rfl⟩ | ⟨-, hold⟩ | ⟨-, job, next, hrest, rfl⟩
  · exact h.others id' task other hstep.found hid (hstep.job.symm.trans hjob)
  · exact h.others id' t other hold hid hjob
  · obtain ⟨-, c, peer, rfl⟩ := h.spawns (List.mem_of_getElem? hstep.found) hrest
    cases hjob

theorem call_step (hfresh : BeginsFresh call request candidates selected sys (.resume id reply))
    (hne : candidates ≠ []) (hsafe : ThrowsNothing H call request sys (.resume id reply))
    (hanswers : PartOf call sys id → ∀ e next, task.rest = .await (.external e) next →
      net.Answers (expectedOf task.job) task.history ⟨e, reply e⟩) :
    ∃ own, sys'.tasks[call]? = some own ∧ own.job = .downloadChunk request ∧
      (own = (nodeProgram H fuel handler).newTask (.downloadChunk request) ∨
        ∃ c, HasBegun net request candidates selected sys' c own) := by
  obtain ⟨own, hown, hjob, hstate⟩ := h.call
  by_cases hid : id = call
  · subst hid
    rw [hstep.found] at hown
    cases hown
    refine ⟨task', hstep.getElem?_self, hstep.job.trans hjob, Or.inr ?_⟩
    rcases hstate with rfl | ⟨c, hbegun⟩
    · obtain ⟨hnone, hcandidates, hraces⟩ := hfresh reply _ rfl hstep.found ⟨_, rfl⟩
      have hbegins : CanBegin request sys.shared :=
        ⟨hsafe.reserves reply _ rfl hstep.found ⟨_, rfl⟩, by rwa [hcandidates]⟩
      exact h.hasBegun_begin hstep hnone hbegins hcandidates hraces hsafe
    · exact ⟨c, h.hasBegun_self hstep rfl hjob (hanswers (Or.inl rfl)) hsafe hbegun⟩
  · refine ⟨own, hstep.getElem?_other (Ne.symm hid) hown, hjob, hstate.imp_right ?_⟩
    rintro ⟨c, hbegun⟩
    exact ⟨c, h.hasBegun_other hstep hid hanswers hown hbegun⟩

end Step

theorem step {action : Action nodeSignature}
    (h : Undisturbed net (nodeProgram H fuel handler) call request candidates selected sys)
    (hkeeps : KeepsOutcomes net call sys action)
    (hfresh : BeginsFresh call request candidates selected sys action) (hne : candidates ≠ [])
    (hsafe : ThrowsNothing H call request sys action)
    (hstep : (nodeProgram H fuel handler).step sys action = some sys') :
    Undisturbed net (nodeProgram H fuel handler) call request candidates selected sys' := by
  obtain ⟨id, reply, rfl, houtcomes⟩ := id hkeeps
  obtain ⟨task, task', spawned, hresumes⟩ := Program.resumes_of_step hstep
  have hanswers := fun hpart e next hrest =>
    (houtcomes hpart task e next hresumes.found hrest).1
  exact ⟨h.toUnderway.step hresumes fun _ _ _ => answers_nobody,
    h.tracked.step (onlyTransfers_resume id reply) hstep, h.part_step hresumes hkeeps,
    h.others_step hresumes, h.call_step hresumes hfresh hne hsafe hanswers⟩

/-! ### The end of the call -/

theorem serves_of_adopted
    (h : Undisturbed net (nodeProgram H fuel handler) call request candidates selected sys)
    (hown : sys.tasks[call]? = some own) {data : Option Bytes}
    (hruns : RunsTo H c request.expectedSha256 selected own.history data)
    (hadopted : adopted own.history ≠ none) :
    (∃ peer ∈ selected, net.Serves request.expectedSha256 peer) ∧ data.isSome = true ∧
      connectsOf own.history = [] := by
  obtain ⟨id, job, finished, result, hjoined, hresult, hsuccess⟩ :=
    exists_joined_of_adopted hadopted
  obtain ⟨⟨peer, hpeer, rfl⟩, hspawned⟩ := hruns.ran.joined hjoined
  refine ⟨⟨peer, hpeer, ?_⟩, hruns.adopts hadopted, hruns.ran.connectsOf_of_adopted hadopted⟩
  obtain ⟨child, hchild, hjob, hended, -⟩ :=
    h.truthful.joined own (List.mem_of_getElem? hown) id _ finished hjoined
  have hexpected := h.tracked.tasks child (List.mem_of_getElem? hchild)
  obtain ⟨-, hrefused⟩ := h.part id child (Or.inr ⟨own, _, hown, hspawned⟩) hchild
  rw [hjob] at hexpected hrefused
  obtain ⟨-, download, heq, -, hdelivered⟩ := Task.Goes.ended hexpected hended
  rw [hresult] at heq
  cases heq
  obtain ⟨bytes, hconversation, hverified⟩ := (hdelivered hsuccess).conversation
  by_contra hrefuses
  exact hrefused _ hconversation hrefuses hverified

theorem fares_of_not_adopted
    (h : Undisturbed net (nodeProgram H fuel handler) call request candidates selected sys)
    (hmem : own ∈ sys.tasks) {data : Option Bytes}
    (hruns : RunsTo H c request.expectedSha256 selected own.history data)
    (hnone : adopted own.history = none)
    (hserved : Served net c (EndsFairly net request candidates selected) sys own)
    (hresult : own.result? = some (.chunk data)) :
    (∀ peer ∈ selected, ¬net.Serves request.expectedSha256 peer) ∧
      ∃ tried, connectsOf own.history = tried.map endpoint ∧
        Tries net request.expectedSha256 (remaining candidates selected) tried data := by
  rcases hserved with ⟨child, job, t, result, hspawned, ht, hended, hsuccess⟩ | ⟨hgoes, -⟩
  · obtain ⟨-, finished, hjoined⟩ := hruns.ran.spawned hspawned
    obtain ⟨t', ht', -, hended', -⟩ := h.truthful.joined own hmem child job finished hjoined
    rw [ht] at ht'
    cases ht'
    rw [hended, Option.some.injEq] at hended'
    exact absurd hnone (hruns.ran.adopted_of_joined hjoined hended'.symm hsuccess)
  · obtain ⟨data', heq, hfares⟩ := (hgoes.ended hresult).resolve_left (by simp)
    cases heq
    refine hfares.resolve_left ?_
    rintro ⟨⟨child, job, finished, -, hjoined, hbrought⟩, -⟩
    obtain ⟨exchanges, value⟩ := finished
    cases value with
    | peerDownload result =>
        exact hruns.ran.adopted_of_joined hjoined rfl hbrought hnone
    | _ => exact hbrought.elim

/-- The last peer that the call has asked is the one that has delivered. -/
theorem serves_last
    (h : Undisturbed net (nodeProgram H fuel handler) call request candidates selected sys)
    (hown : sys.tasks[call]? = some own) (hjob : own.job = .downloadChunk request)
    (hdelivered : Delivered H peer request.expectedSha256 (exchangesOf own.history) data)
    {tried : List PeerNode} (hconnects : connectsOf own.history = tried.map endpoint) :
    ∃ last, tried.getLast? = some last ∧ net.Serves request.expectedSha256 last := by
  obtain ⟨-, hrefused⟩ := h.part call own (Or.inl rfl) hown
  rw [hjob] at hrefused
  have hlast := hdelivered.getLast?_connectsOf
  rw [hconnects, List.getLast?_map] at hlast
  obtain ⟨last, hsome, hsame⟩ := Option.map_eq_some_iff.mp hlast
  obtain ⟨haddress, hport⟩ := Prod.mk.inj hsame
  obtain ⟨bytes, hconversation, hverified⟩ := hdelivered.conversation
  refine ⟨last, hsome, ?_⟩
  unfold Suppliers.Serves
  rw [haddress, hport]
  by_contra hrefuses
  exact hrefused _ hconversation hrefuses hverified

theorem contacts_eq
    (h : Undisturbed net (nodeProgram H fuel handler) call request candidates selected sys)
    (hmem : own ∈ sys.tasks) (hran : Ran c expectedSha256 selected own.history) :
    contactsOf sys own.history = selected.map endpoint ++ connectsOf own.history := by
  refine hran.contactsOf_eq (h.truthful.joined own hmem) fun id child peer hchild hjob hended => ?_
  have hexpected := h.tracked.tasks child (List.mem_of_getElem? hchild)
  rw [hjob] at hexpected
  obtain ⟨result, hresult⟩ := Option.ne_none_iff_exists'.mp hended
  exact (Task.Goes.ended hexpected hresult).1

theorem asked_of_not_adopted
    (h : Undisturbed net (nodeProgram H fuel handler) call request candidates selected sys)
    (hown : sys.tasks[call]? = some own) (hjob : own.job = .downloadChunk request)
    {data : Option Bytes}
    (hruns : RunsTo H c request.expectedSha256 selected own.history data)
    (hnone : adopted own.history = none)
    (hserved : Served net c (EndsFairly net request candidates selected) sys own)
    (hresult : own.result? = some (.chunk data)) :
    (∀ peer ∈ selected, ¬net.Serves request.expectedSha256 peer) ∧
      connectsOf own.history = (askedInTurn (net.Serves request.expectedSha256)
        (remaining candidates selected)).map endpoint ∧
      (data.isSome = true ↔
        ∃ peer ∈ remaining candidates selected, net.Serves request.expectedSha256 peer) := by
  obtain ⟨hnobody, tried, hconnects, htries⟩ :=
    h.fares_of_not_adopted (List.mem_of_getElem? hown) hruns hnone hserved hresult
  refine ⟨hnobody, ?_⟩
  rw [hconnects]
  cases data with
  | none =>
      obtain ⟨hall, hrest⟩ := htries.exhausted rfl
      have hasked := eq_askedInTurn (net.Serves request.expectedSha256) htries.order htries.failed
        (Or.inr ⟨hall, hrest⟩)
      refine ⟨congrArg _ hasked, by simp, ?_⟩
      rintro ⟨peer, hpeer, hserves⟩
      exact absurd hserves (hrest peer hpeer)
  | some data =>
      obtain ⟨peer, hdelivered⟩ := hruns.delivered hnone data rfl
      obtain ⟨last, hlast, hserves⟩ := h.serves_last hown hjob hdelivered hconnects
      have hasked := eq_askedInTurn (net.Serves request.expectedSha256) htries.order htries.failed
        (Or.inl ⟨last, hlast, hserves⟩)
      refine ⟨congrArg _ hasked, iff_of_true rfl ⟨last, ?_, hserves⟩⟩
      exact htries.order.subset (List.mem_of_getLast? hlast)

theorem completes
    (h : Undisturbed net (nodeProgram H fuel handler) call request candidates selected sys)
    (hnodup : (candidates.map (·.nodeId)).Nodup) (hown : sys.tasks[call]? = some own)
    (hjob : own.job = .downloadChunk request)
    (hbegun : HasBegun net request candidates selected sys c own) {result : JobResult}
    (hresult : own.result? = some result) :
    ∃ data, result = .chunk data ∧ Completes net request candidates selected sys own data := by
  have hreturns := hbegun.returns
  rw [hresult, ne_eq, Option.some.injEq] at hreturns
  obtain ⟨data, rfl, hruns⟩ := (hbegun.runs.ended hresult).resolve_left hreturns
  obtain ⟨rest, hperm⟩ := hbegun.selects
  have hselected : ∀ peer ∈ selected, peer ∈ candidates := fun peer hpeer =>
    hperm.subset (List.mem_append_left rest hpeer)
  have hcontacts := h.contacts_eq (List.mem_of_getElem? hown) hruns.ran
  refine ⟨data, rfl, ?_⟩
  by_cases hadopted : adopted own.history = none
  · obtain ⟨hnobody, hconnects, hdata⟩ :=
      h.asked_of_not_adopted hown hjob hruns hadopted hbegun.served hresult
    refine ⟨⟨c, hruns.ran⟩, ?_, nodup_askedPeers hperm hnodup, hdata.trans ⟨?_, ?_⟩⟩
    · rw [hcontacts, hconnects, askedPeers_of_nobody hnobody, List.map_append]
    · rintro ⟨peer, hpeer, hserves⟩
      exact ⟨peer, List.mem_of_mem_filter hpeer, hserves⟩
    · rintro ⟨peer, hpeer, hserves⟩
      refine ⟨peer, ?_, hserves⟩
      exact (mem_selected_or_remaining hperm hnodup hpeer).resolve_left fun hmem =>
        hnobody peer hmem hserves
  · obtain ⟨hserves, hsome, hconnects⟩ := h.serves_of_adopted hown hruns hadopted
    refine ⟨⟨c, hruns.ran⟩, ?_, nodup_askedPeers hperm hnodup, iff_of_true hsome ?_⟩
    · rw [hcontacts, hconnects, askedPeers_of_supplier hserves, List.append_nil]
    · obtain ⟨peer, hpeer, hserves⟩ := hserves
      exact ⟨peer, hselected peer hpeer, hserves⟩

/-! ### Going on -/

theorem exists_answer {e : External} (hrefused : KeepsOut net expectedSha256 history)
    (hanswers : ∃ answer, net.Answers expectedSha256 history ⟨e, answer⟩) :
    ∃ answer, net.Answers expectedSha256 history ⟨e, answer⟩ ∧
      KeepsOut net expectedSha256 (history ++ [.external (⟨e, answer⟩ : NetExchange)]) := by
  obtain ⟨answer, hanswer⟩ := hanswers
  have hquiet : ∀ answer, isConnect ⟨e, answer⟩ = false → incoming ⟨e, answer⟩ = [] →
      KeepsOut net expectedSha256 (history ++ [.external (⟨e, answer⟩ : NetExchange)]) := by
    intro answer hconnect hincoming
    unfold KeepsOut
    rwa [conversation_quiet hconnect hincoming]
  cases e with
  | tcpConnect address port =>
      by_cases hd : net.delivers expectedSha256 address port
      · refine ⟨true, ⟨fun a p heq => (by cases heq), fun _ _ _ => trivial⟩,
          fun c hc hrefuses => ?_⟩
        rw [conversation_tcpConnect] at hc
        cases hc
        exact absurd hd hrefuses
      · refine ⟨false, ⟨fun a p heq => ?_, fun _ _ _ => trivial⟩, fun c hc => ?_⟩
        · cases heq
          exact hd
        · rw [conversation_external] at hc
          cases hc
  | streamRead n =>
      cases hnow : conversation history with
      | none =>
          refine ⟨answer, hanswer, fun c hc => ?_⟩
          replace hc := (conversation_streamRead history n answer).symm.trans hc
          rw [hnow] at hc
          cases hc
      | some now =>
          by_cases hd : net.delivers expectedSha256 now.address now.port
          · refine ⟨answer, hanswer, fun c hc hrefuses => ?_⟩
            replace hc := (conversation_streamRead history n answer).symm.trans hc
            rw [hnow] at hc
            cases hc
            exact absurd hd hrefuses
          · refine ⟨⟨[], Nat.zero_le n⟩, ⟨fun a p heq => (by cases heq), fun c hc hserves => ?_⟩,
              hquiet _ rfl rfl⟩
            rw [hnow] at hc
            cases hc
            exact absurd hserves hd
  | _ => exact ⟨answer, hanswer, hquiet answer rfl rfl⟩

theorem progress
    (h : Undisturbed net (nodeProgram H fuel handler) call request candidates selected sys)
    (hnodup : (candidates.map (·.nodeId)).Nodup) :
    Completed net call request candidates selected sys ∨ ∃ action sys',
      KeepsOutcomes net call sys action ∧
      (nodeProgram H fuel handler).step sys action = some sys' := by
  obtain ⟨own, hown, hjob, hstate⟩ := h.call
  cases hresult : own.result? with
  | some result =>
      rcases hstate with rfl | ⟨c, hbegun⟩
      · cases hresult
      · obtain ⟨data, rfl, hcompletes⟩ :=
          h.completes hnodup hown hjob hbegun hresult
        exact Or.inl ⟨own, data, hown, hresult, hcompletes⟩
  | none =>
      obtain ⟨id, t, hpart, ht, hunfinished, hjoins⟩ := h.exists_ready hown hresult
      replace hpart : PartOf call sys id := hpart.imp_right fun ⟨job, hspawned⟩ =>
        ⟨own, job, hown, hspawned⟩
      obtain ⟨hgoes, hrefused⟩ := h.part id t hpart ht
      obtain ⟨reply, hreply⟩ := Underway.exists_reply t fun e next hrest => by
        obtain ⟨s, -, hanswer⟩ := hgoes.waits hrest
        exact exists_answer hrefused hanswer
      obtain ⟨sys', hstep⟩ := h.can_step ht hunfinished (fun _ _ _ => answers_nobody) hjoins
      refine Or.inr ⟨.resume id reply, sys', ⟨id, reply, rfl, fun _ t' e next ht' hrest => ?_⟩,
        hstep⟩
      rw [ht] at ht'
      cases ht'
      exact hreply e next hrest

theorem initial {requests : List TransferRequest} {s : Node} (howned : Owned s.transfer)
    (hrunning : s.transfer.running = true) (hcall : requests[call]? = some request)
    (hothers : ∀ (i : Nat) other, requests[i]? = some other → i ≠ call →
      other.chunkId ≠ request.chunkId) :
    Undisturbed net (nodeProgram H fuel handler) call request candidates selected
      (callsOf (nodeProgram H fuel handler) requests s) := by
  refine ⟨Underway.initial hrunning, tracked_callsOf howned requests, fun i task hi htask => ?_,
    fun i task other htask hi hjob => ?_, _, getElem?_callsOf hcall s, rfl, Or.inl rfl⟩
  · obtain ⟨other, -, rfl⟩ := List.mem_map.mp (List.mem_of_getElem? htask)
    exact ⟨keeps_newCall other, fun c hc => nomatch hc⟩
  · rw [callsOf, List.getElem?_map] at htask
    obtain ⟨request', hrequest, rfl⟩ := Option.map_eq_some_iff.mp htask
    cases hjob
    exact hothers i other hrequest hi

end Undisturbed

/-- A call for a chunk that nobody else downloads or cancels, in a manager that
runs and whose entries lead to contexts of their chunks, asks its candidates as
it should if it throws nothing, whatever calls for other chunks do in the
meantime. -/
theorem downloadChunk_completes {requests : List TransferRequest} {s : Node}
    (howned : Owned s.transfer) (hrunning : s.transfer.running = true)
    (hcall : requests[call]? = some request)
    (hothers : ∀ (i : Nat) other, requests[i]? = some other → i ≠ call →
      other.chunkId ≠ request.chunkId)
    (hne : candidates ≠ []) (hnodup : (candidates.map (·.nodeId)).Nodup) :
    Inevitable (nodeProgram H fuel handler).step (KeepsOutcomes net call)
      (fun sys action => KeepsOutcomes net call sys action ∧
        BeginsFresh call request candidates selected sys action ∧
        ThrowsNothing H call request sys action)
      (Completed net call request candidates selected)
      (callsOf (nodeProgram H fuel handler) requests s) := by
  refine inevitable_of_wellFounded wellFounded_remains (System.remains levelOf)
    (I := Undisturbed net (nodeProgram H fuel handler) call request candidates selected) ?_ ?_
    (fun sys h => h.progress hnodup) (Undisturbed.initial howned hrunning hcall hothers)
  · rintro sys action sys' h ⟨⟨id, reply, rfl, -⟩, -⟩ hstep
    obtain ⟨task, task', spawned, hresumes⟩ := Program.resumes_of_step hstep
    exact h.remains hresumes
  · rintro sys action sys' h ⟨hkeeps, hfresh, hsafe⟩ hstep
    exact h.step hkeeps hfresh hne hsafe hstep

end Runs

/-! ## A peer that refuses and one that delivers -/

def brokenPeer : PeerNode := { nodeId := ascii "b", address := ascii "10.0.0.3", port := 9000 }

def sampleFallback : TransferRequest :=
  { sampleDownload with sources := [brokenPeer, samplePeer], kValue := 1 }

def isRefused (id : Nat) : Action nodeSignature :=
  .resume id fun
    | .tcpConnect _ _ => false
    | e => answers [] none (fun _ _ => none) e

def fallbackRun : List (Action nodeSignature) :=
  [reads 0 [], reads 0 [], reads 1 [], isRefused 1, reads 0 []] ++ (receives 0).tail ++
    [reads 0 [1], reads 0 []]

def refusesConnect : NetExchange → Bool
  | ⟨.tcpConnect address port, ok⟩ => !ok && decide ((address, port) ≠ endpoint samplePeer)
  | _ => false

theorem answers_of_refusesConnect {expectedSha256 : Bytes} {h : List (Event nodeSignature)}
    {x : NetExchange} (hx : refusesConnect x = true) :
    sampleSuppliers.Answers expectedSha256 h x := by
  obtain ⟨e, answer⟩ := x
  cases e with
  | tcpConnect address port =>
      simp only [refusesConnect, Bool.and_eq_true, decide_eq_true_eq] at hx
      refine ⟨fun a p heq => ?_, fun _ _ _ => trivial⟩
      cases heq
      rintro ⟨-, rfl, rfl⟩
      exact hx.2 rfl
  | _ => cases hx

/-- The step is an exchange with the peer of `sampleDownload`, which answers
`stream`, or the refusal of another one, if it is an exchange. -/
def keepsSample (stream : Bytes) (sys : System nodeSignature) : Action nodeSignature → Bool
  | .start _ => false
  | .resume id reply => sys.tasks[id]?.all fun task =>
      match task.rest with
      | .await (.external e) _ =>
          (follows stream task.history ⟨e, reply e⟩ || refusesConnect ⟨e, reply e⟩) &&
            (conversation (task.history ++ [.external ⟨e, reply e⟩])).all fun c =>
              decide (expectedOf task.job = sampleDownload.expectedSha256 ∧
                c.address = samplePeer.address ∧ c.port = samplePeer.port)
      | _ => true

theorem keepsOutcomes_of_keepsSample {stream : Bytes} {sys : System nodeSignature}
    {action : Action nodeSignature}
    (hstream : ∀ expectedSha256 address port,
      sampleSuppliers.delivers expectedSha256 address port →
        Verified Cache.ChunkManager.sampleSha256 expectedSha256 stream)
    (h : keepsSample stream sys action = true) : KeepsOutcomes sampleSuppliers 0 sys action := by
  cases action with
  | start job => cases h
  | resume id reply =>
      have hexchange : ∀ task e next, sys.tasks[id]? = some task →
          task.rest = .await (.external e) next →
          (follows stream task.history ⟨e, reply e⟩ || refusesConnect ⟨e, reply e⟩) = true ∧
            ∀ c, conversation (task.history ++ [.external ⟨e, reply e⟩]) = some c →
              sampleSuppliers.delivers (expectedOf task.job) c.address c.port := by
        intro task e next htask hrest
        simp only [keepsSample, htask, Option.all_some, hrest, Bool.and_eq_true] at h
        refine ⟨h.1, fun c hc => ?_⟩
        have hsupplier := h.2
        rw [hc, Option.all_some, decide_eq_true_eq] at hsupplier
        exact hsupplier
      refine ⟨id, reply, rfl, fun _ task e next htask hrest => ⟨?_, fun c hc hrefuses => ?_⟩⟩
      · rcases (Bool.or_eq_true _ _).mp (hexchange task e next htask hrest).1 with
          hfollows | hrefused
        · exact answers_of_follows (hstream _) hfollows
        · exact answers_of_refusesConnect hrefused
      · exact absurd ((hexchange task e next htask hrest).2 c hc) hrefuses

def racingOf : Begun → List PeerNode
  | .race _ _ racing => racing
  | .unreserved | .nobody => []

def beginsSample (request : TransferRequest) (candidates selected : List PeerNode)
    (sys : System nodeSignature) : Action nodeSignature → Bool
  | .resume 0 _ => sys.tasks[0]?.all fun task =>
      match task.rest with
      | .get _ => (sys.shared.transfer.activeTransfers.lookup request.chunkId).isNone &&
          decide ((findCandidates request sys.shared.transfer sys.shared.discovery).1 = candidates ∧
            racingOf (beginDownload request sys.shared).1 = selected)
      | _ => true
  | _ => true

theorem beginsFresh_of_beginsSample {request : TransferRequest}
    {candidates selected : List PeerNode} {sys : System nodeSignature}
    {action : Action nodeSignature}
    (h : beginsSample request candidates selected sys action = true) :
    BeginsFresh 0 request candidates selected sys action := by
  rintro reply task rfl htask ⟨next, hrest⟩
  simp only [beginsSample, htask, Option.all_some, hrest, Bool.and_eq_true,
    Option.isNone_iff_eq_none,
    decide_eq_true_eq] at h
  obtain ⟨hnone, hcandidates, hracing⟩ := h
  refine ⟨hnone, hcandidates, fun c all racing hbegun => ?_⟩
  rwa [hbegun] at hracing

/-- The call gets the data, and it has contacted the first peer and then the
second one. -/
theorem downloadChunk_completes_fallbackRun :
    sampleNode.transfer.running = true ∧
    Inevitable (nodeProgram Cache.ChunkManager.sampleSha256 0 {}).step
      (KeepsOutcomes sampleSuppliers 0)
      (fun sys action => KeepsOutcomes sampleSuppliers 0 sys action ∧
        BeginsFresh 0 sampleFallback [brokenPeer, samplePeer] [brokenPeer] sys action ∧
        ThrowsNothing Cache.ChunkManager.sampleSha256 0 sampleFallback sys action)
      (Completed sampleSuppliers 0 sampleFallback [brokenPeer, samplePeer] [brokenPeer])
      (callsOf (nodeProgram Cache.ChunkManager.sampleSha256 0 {}) [sampleFallback] sampleNode) ∧
    EveryStep (nodeProgram Cache.ChunkManager.sampleSha256 0 {}).step
      (fun sys action => KeepsOutcomes sampleSuppliers 0 sys action ∧
        BeginsFresh 0 sampleFallback [brokenPeer, samplePeer] [brokenPeer] sys action ∧
        ThrowsNothing Cache.ChunkManager.sampleSha256 0 sampleFallback sys action)
      (callsOf (nodeProgram Cache.ChunkManager.sampleSha256 0 {}) [sampleFallback] sampleNode)
      fallbackRun ∧
    ∃ sys task, runSteps (nodeProgram Cache.ChunkManager.sampleSha256 0 {}).step
        (callsOf (nodeProgram Cache.ChunkManager.sampleSha256 0 {}) [sampleFallback] sampleNode)
          fallbackRun = some sys ∧ sys.tasks[0]? = some task ∧
      task.result? = some (.chunk (some [1])) ∧
      contactsOf sys task.history = [endpoint brokenPeer, endpoint samplePeer] := by
  have hrun : ((runSteps (nodeProgram Cache.ChunkManager.sampleSha256 0 {}).step
      (callsOf (nodeProgram Cache.ChunkManager.sampleSha256 0 {}) [sampleFallback] sampleNode)
        fallbackRun).any fun sys => sys.tasks[0]?.any fun task =>
          decide (returnedChunk task = some [1]) && decide (contactsOf sys task.history =
            [endpoint brokenPeer, endpoint samplePeer])) = true := by
    decide +kernel
  have hsteps : EveryStep (nodeProgram Cache.ChunkManager.sampleSha256 0 {}).step
      (fun sys action => keepsSample sampleResponse sys action = true ∧
        beginsSample sampleFallback [brokenPeer, samplePeer] [brokenPeer] sys action = true ∧
        throwsNothing sampleFallback sys = true)
      (callsOf (nodeProgram Cache.ChunkManager.sampleSha256 0 {}) [sampleFallback] sampleNode)
      fallbackRun := by
    decide +kernel
  have hothers : ∀ (i : Nat) other, [sampleFallback][i]? = some other → i ≠ 0 →
      other.chunkId ≠ sampleFallback.chunkId := by
    rintro (_ | i) other hother hi
    · exact absurd rfl hi
    · cases hother
  refine ⟨rfl, downloadChunk_completes (owned_of_empty rfl) rfl rfl hothers (by decide)
    (by decide), hsteps.mono fun sys action h =>
      ⟨keepsOutcomes_of_keepsSample sampleSuppliers_verified h.1,
        beginsFresh_of_beginsSample h.2.1, throwsNothing_sound h.2.2⟩, ?_⟩
  obtain ⟨sys, hsys, htask⟩ := (Option.any_eq_true _ _).mp hrun
  obtain ⟨task, htask, hends⟩ := (Option.any_eq_true _ _).mp htask
  simp only [Bool.and_eq_true, decide_eq_true_eq] at hends
  exact ⟨sys, task, hsys, htask, result_of_returnedChunk hends.1, hends.2⟩

/-! ## A chunk with a long name -/

/-- An id to which a file system that allows names of 255 bytes lets no `.tmp`
be added. -/
def longId : Bytes := List.replicate 252 97

def longDownload : TransferRequest := { sampleDownload with chunkId := longId }

/-- Names of more than 255 bytes can neither be opened nor removed. -/
def longNode : Node :=
  { sampleNode with
    transfer := { sampleTransfer with
      progressFiles := { FileSystem.empty with
        outcome := fun _ => .openFails
        refuses := fun _ path => 255 < path.filename.length } } }

def longResponse : Bytes :=
  headerBytes (hashedHeader Cache.ChunkManager.sampleSha256 .response 252 1 4 [1]) ++ longId ++ [1]

theorem sampleSuppliers_longResponse (expectedSha256 address : Bytes) (port : UInt16)
    (h : sampleSuppliers.delivers expectedSha256 address port) :
    Verified Cache.ChunkManager.sampleSha256 expectedSha256 longResponse := by
  obtain ⟨rfl, -, -⟩ := h
  have hid : longId.length = 252 := List.length_replicate
  exact ⟨[1], ⟨_, longId, rfl, rfl, rfl, hid, rfl, rfl⟩, fun _ => rfl⟩

def longRun : List (Action nodeSignature) :=
  [reads 0 [], reads 0 [], reads 1 [], reads 1 [], reads 1 [], reads 1 [],
    reads 1 (headerBytes (hashedHeader Cache.ChunkManager.sampleSha256 .response 252 1 4 [1])),
    reads 1 longId, reads 1 [], reads 1 [1], reads 1 [], reads 0 []]

def endsThrown (task : Task nodeSignature) : Bool :=
  match task.result? with
  | some .thrown => true
  | _ => false

theorem result_of_endsThrown {task : Task nodeSignature} (h : endsThrown task = true) :
    task.result? = some .thrown := by
  unfold endsThrown at h
  split at h
  · assumption
  · cases h

/-- The only candidate delivers, and an exception leaves the call. -/
theorem downloadChunk_longRun :
    ∃ sys task, runSteps (nodeProgram Cache.ChunkManager.sampleSha256 0 {}).step
        (callsOf (nodeProgram Cache.ChunkManager.sampleSha256 0 {}) [longDownload] longNode)
          longRun = some sys ∧
      EveryStep (nodeProgram Cache.ChunkManager.sampleSha256 0 {}).step
        (fun sys action => KeepsOutcomes sampleSuppliers 0 sys action ∧
          BeginsFresh 0 longDownload [samplePeer] [samplePeer] sys action)
        (callsOf (nodeProgram Cache.ChunkManager.sampleSha256 0 {}) [longDownload] longNode)
        longRun ∧
      Owned longNode.transfer ∧ longNode.transfer.running = true ∧
      ([samplePeer].map (·.nodeId)).Nodup ∧
      (∃ peer ∈ [samplePeer], sampleSuppliers.Serves longDownload.expectedSha256 peer) ∧
      sys.tasks[0]? = some task ∧ task.result? = some .thrown := by
  have hrun : ((runSteps (nodeProgram Cache.ChunkManager.sampleSha256 0 {}).step
      (callsOf (nodeProgram Cache.ChunkManager.sampleSha256 0 {}) [longDownload] longNode)
        longRun).any fun sys => sys.tasks[0]?.any endsThrown) = true := by
    decide +kernel
  have hsteps : EveryStep (nodeProgram Cache.ChunkManager.sampleSha256 0 {}).step
      (fun sys action => keepsSample longResponse sys action = true ∧
        beginsSample longDownload [samplePeer] [samplePeer] sys action = true)
      (callsOf (nodeProgram Cache.ChunkManager.sampleSha256 0 {}) [longDownload] longNode)
      longRun := by
    decide +kernel
  obtain ⟨sys, hsys, htask⟩ := (Option.any_eq_true _ _).mp hrun
  obtain ⟨task, htask, hthrown⟩ := (Option.any_eq_true _ _).mp htask
  exact ⟨sys, task, hsys, hsteps.mono fun sys action h =>
    ⟨keepsOutcomes_of_keepsSample sampleSuppliers_longResponse h.1,
      beginsFresh_of_beginsSample h.2⟩, owned_of_empty rfl, rfl, by simp,
    ⟨samplePeer, by simp, rfl, rfl, rfl⟩, htask, result_of_endsThrown hthrown⟩

end ElioP2P.P2P
