import ElioP2P.P2P.Proofs.Race
import ElioP2P.P2P.Proofs.TransferTasks

/-!
# Calls that download one chunk at the same time

Calls of `download_chunk` for one chunk share its context, and with it the stop
flag.  A call raises the flag when it adopts a copy, in order to abort its own
downloads, but the downloads of the other calls look at the same flag.  A call
that has no copy of its own at that moment, or that begins before the winner has
removed the context, fails although one of its peers would have delivered.

Besides an exception that leaves the call, that is the only way to fail: in every
run in which neither happens to a call with a candidate that delivers, this call
returns data.
-/

namespace ElioP2P.P2P

open ElioP2P.Library ElioP2P.Library.Coroutine ElioP2P.Proxy

/-! ## The setting -/

def expectedOf : Job → Bytes
  | .downloadFromPeer _ _ expectedSha256 => expectedSha256
  | .downloadChunk request => request.expectedSha256
  | _ => []

def callsOf (P : Program nodeSignature) (requests : List TransferRequest) (s : Node) :
    System nodeSignature :=
  ⟨s, requests.map fun request => P.newTask (.downloadChunk request)⟩

def Honest {H : Sha256} (net : Suppliers H) (sys : System nodeSignature)
    (action : Action nodeSignature) : Prop :=
  ∃ id reply, action = .resume id reply ∧
    ∀ task e next, sys.tasks[id]? = some task → task.rest = .await (.external e) next →
      net.Answers (expectedOf task.job) task.history ⟨e, reply e⟩

def BeginsWithSupplier {H : Sha256} (net : Suppliers H) (call : Nat) (request : TransferRequest)
    (sys : System nodeSignature) (action : Action nodeSignature) : Prop :=
  ∀ reply task, action = .resume call reply → sys.tasks[call]? = some task → task.Fresh →
    HasSupplier net request.expectedSha256
      (findCandidates request sys.shared.transfer sys.shared.discovery).1

def Closing (H : Sha256) (expectedSha256 : Bytes) (task : Task nodeSignature) : Prop :=
  (∃ next, task.rest = .await (.external .streamClose) next) ∧
    HasResponse H expectedSha256 task.history

def HasDownload (sys : System nodeSignature) (task : Task nodeSignature) : Prop :=
  ∃ id job child result, .spawned id job ∈ task.history ∧ sys.tasks[id]? = some child ∧
    child.result? = some (.peerDownload result) ∧ result.success = true

def AboutToAdopt (H : Sha256) (expectedSha256 : Bytes) (sys : System nodeSignature)
    (task : Task nodeSignature) : Prop :=
  Closing H expectedSha256 task ∨
    ∃ id job next finished, task.rest = .await (.join id job) next ∧
      sys.finished id job = some finished ∧ Brought (.joined id job finished)

/-- The step does no harm to the call: it does not begin it in a context whose
stop flag is up, and no other call adopts a copy in it while this one has begun,
has not ended and has no copy of its own. -/
structure LeavesAlone (H : Sha256) (call : Nat) (request : TransferRequest)
    (sys : System nodeSignature) (action : Action nodeSignature) : Prop where
  begins : ∀ reply task, action = .resume call reply → sys.tasks[call]? = some task →
    task.Fresh → ∀ ctx, sys.shared.transfer.activeTransfers.lookup request.chunkId = some ctx →
      sys.shared.transfer.isStopped ctx = false
  adopts : ∀ id reply rival other task, action = .resume id reply → id ≠ call →
    sys.tasks[id]? = some rival → rival.job = .downloadChunk other →
      AboutToAdopt H other.expectedSha256 sys rival → sys.tasks[call]? = some task →
        task.Fresh ∨ task.result? ≠ none ∨ HasDownload sys task ∨
          Closing H request.expectedSha256 task

def ReturnsData (call : Nat) (sys : System nodeSignature) : Prop :=
  ∃ task data, sys.tasks[call]? = some task ∧ task.result? = some (.chunk (some data))

/-! ## The tasks of such a run -/

section Tasks

variable {H : Sha256} {net : Suppliers H} {fuel : Nat} {handler : RequestHandler}

def roleOf : Job → Role
  | .downloadChunk _ => .call
  | _ => .peerDownload

def Ends (net : Suppliers H) : Job → List (Event nodeSignature) → JobResult → Prop
  | .downloadChunk _, h, result =>
      result = .thrown ∨ ∃ data, result = .chunk data ∧ (data = none → AllFailed h)
  | job, _, result => net.Joined none job result

def Keeps (net : Suppliers H) (task : Task nodeSignature) : Prop :=
  task.Goes (downloads net (roleOf task.job) (expectedOf task.job) none) (Ends net task.job)

def Unstopped (net : Suppliers H) (c : Nat) (task : Task nodeSignature) : Prop :=
  task.Goes (downloads net .peerDownload (expectedOf task.job) (some c)) fun _ result =>
    net.Joined (some c) task.job result

def Unharmed (net : Suppliers H) (c : Nat) (ends : List (Event nodeSignature) → JobResult → Prop)
    (task : Task nodeSignature) : Prop :=
  task.Goes (downloads net .call (expectedOf task.job) (some c)) ends

def HasData (_ : List (Event nodeSignature)) (result : JobResult) : Prop :=
  result = .thrown ∨ ∃ data, result = .chunk (some data)

theorem covers_call {ctx : Option Nat} {expectedSha256 : Bytes}
    {ends : List (Event nodeSignature) → JobResult → Prop} (hthrown : ∀ h, ends h .thrown) :
    (downloads net .call expectedSha256 ctx).Covers
      ((downloads net .call expectedSha256 ctx).Ends ends) :=
  fun h _ _ hthrows => ⟨hthrows.2, hthrown h⟩

theorem covers_peerDownload {ctx : Option Nat} {expectedSha256 : Bytes}
    {post : List (Event nodeSignature) → JobResult → Node → Node → Prop} :
    (downloads net .peerDownload expectedSha256 ctx).Covers post :=
  fun _ _ _ hthrows => nomatch hthrows.1

theorem meets_peerDownload (ctx : Option Nat) (c : Nat) (peer : PeerNode)
    (expectedSha256 : Bytes) {s : Node} (hs : Clear ctx s) :
    ((nodeProgram H fuel handler).entry (.downloadFromPeer c peer expectedSha256)).Meets
      (downloads net .peerDownload expectedSha256 ctx)
      (fun h result found s => Raises (Role.peerDownload.Wins H expectedSha256 h) found s ∧
        net.Joined ctx (.downloadFromPeer c peer expectedSha256) result) [] s s := by
  have hsettled : Settled H .peerDownload expectedSha256 ctx (fun _ => True) [] s s :=
    settled_start hs trivial
  have hlasting : Lasting fun _ => True := fun _ _ _ => id
  refine Meets.seq (meets_downloadFromPeer c peer hlasting hsettled fun _ => id) ?_
  rintro h result found s ⟨hleaves, -, -, -, hdelivers⟩
  exact ⟨hleaves, hdelivers⟩

theorem keeps_newDownload (c : Nat) (peer : PeerNode) (expectedSha256 : Bytes) :
    Keeps net ((nodeProgram H fuel handler).newTask (.downloadFromPeer c peer expectedSha256)) ∧
      ∀ ctx, Unstopped net ctx
        ((nodeProgram H fuel handler).newTask (.downloadFromPeer c peer expectedSha256)) :=
  ⟨Task.goes_newTask fun _ hs => meets_peerDownload none c peer expectedSha256 hs,
    fun ctx => Task.goes_newTask fun _ hs => meets_peerDownload (some ctx) c peer expectedSha256 hs⟩

theorem keeps_newCall (request : TransferRequest) :
    Keeps net ((nodeProgram H fuel handler).newTask (.downloadChunk request)) := by
  refine Task.goes_newTask fun s hs => ?_
  refine Meets.seq (meets_downloadChunk request hs) ?_
  rintro h result found s ⟨hleaves, hnone, -⟩
  exact ⟨hleaves, Or.inr ⟨result, rfl, hnone⟩⟩

theorem covers_keeps (job : Job) {expectedSha256 : Bytes} :
    (downloads net (roleOf job) expectedSha256 none).Covers
      ((downloads net (roleOf job) expectedSha256 none).Ends (Ends net job)) := by
  cases job with
  | downloadChunk request => exact covers_call fun _ => Or.inl rfl
  | _ => exact covers_peerDownload

/-! ## The invariant -/

/-- The call has a copy or goes on unharmed. -/
def Served (net : Suppliers H) (c : Nat) (ends : List (Event nodeSignature) → JobResult → Prop)
    (sys : System nodeSignature) (task : Task nodeSignature) : Prop :=
  HasDownload sys task ∨ Unharmed net c ends task ∧
    (sys.shared.transfer.isStopped c = false ∨ task.result? ≠ none ∨
      Closing H (expectedOf task.job) task)

structure Underway (net : Suppliers H) (sys : System nodeSignature) : Prop where
  running : sys.shared.transfer.running = true
  jobs : ∀ task ∈ sys.tasks, (∃ other, task.job = .downloadChunk other) ∨
    ∃ c peer expectedSha256, task.job = .downloadFromPeer c peer expectedSha256
  truthful : sys.Truthful
  keeps : ∀ task ∈ sys.tasks, Keeps net task
  unstopped : ∀ task ∈ sys.tasks, ∀ c peer expectedSha256,
    task.job = .downloadFromPeer c peer expectedSha256 →
      sys.shared.transfer.isStopped c = false → Unstopped net c task

structure Undefeated (net : Suppliers H) (P : Program nodeSignature) (call : Nat)
    (request : TransferRequest) (sys : System nodeSignature) : Prop extends Underway net sys where
  tracked : Tracked H P sys
  call : ∃ task, sys.tasks[call]? = some task ∧ task.job = .downloadChunk request ∧
    (task = P.newTask (.downloadChunk request) ∨ ¬task.Fresh ∧ task.result? ≠ some .thrown ∧
      ∃ c, Served net c HasData sys task)

variable {P : Program nodeSignature} {call : Nat} {request : TransferRequest}
  {sys sys' : System nodeSignature} {reply : (e : External) → e.Answer} {id : Nat}
  {task task' : Task nodeSignature} {spawned : List (Task nodeSignature)}

theorem downloads_admits {role : Role} {ctx : Option Nat}
    (hclear : Clear ctx sys.shared ∨ Closing H (expectedOf task.job) task)
    (hanswers : ∀ e next, task.rest = .await (.external e) next →
      net.Answers (expectedOf task.job) task.history ⟨e, reply e⟩)
    (hjoined : ∀ child job next finished, task.rest = .await (.join child job) next →
      sys.finished child job = some finished → net.Joined ctx job finished.result)
    {w : Wait nodeSignature} {next : w.Reply → Proc JobResult} {r : w.Reply}
    (hrest : task.rest = .await w next) (hgives : sys.Gives reply w r) :
    (downloads net role (expectedOf task.job) ctx).admits task.history sys.shared w r := by
  refine ⟨hclear.imp_right ?_, ?_⟩
  · rintro ⟨⟨next', hclose⟩, hresponse⟩
    rw [hrest] at hclose
    cases hclose
    exact ⟨rfl, hresponse⟩
  · cases w with
    | external e =>
        cases hgives
        exact hanswers e next hrest
    | spawn job => trivial
    | join child job => exact hjoined child job next r hrest hgives

/-- What a step of a task does, whatever flags it finds. -/
theorem Keeps.step (h : Keeps net task) (hstep : P.Resumes reply sys sys' id task task' spawned)
    (hanswers : ∀ e next, task.rest = .await (.external e) next →
      net.Answers (expectedOf task.job) task.history ⟨e, reply e⟩)
    (hjoined : ∀ child job next finished, task.rest = .await (.join child job) next →
      sys.finished child job = some finished → net.Joined none job finished.result) :
    Keeps net task' ∧ Raises ((roleOf task.job).Wins H (expectedOf task.job) task'.history)
      sys.shared sys'.shared := by
  obtain ⟨hgoes, hleaves, -⟩ := Task.Goes.resumes (covers_keeps task.job) h hstep
    (fun _ => clear_none _) fun w next r hrest hgives =>
      downloads_admits (Or.inl (clear_none _)) hanswers hjoined hrest hgives
  refine ⟨?_, hleaves⟩
  unfold Keeps
  rw [hstep.job]
  exact hgoes

theorem Unstopped.step {c : Nat} (h : Unstopped net c task)
    (hstep : P.Resumes reply sys sys' id task task' spawned)
    (hanswers : ∀ e next, task.rest = .await (.external e) next →
      net.Answers (expectedOf task.job) task.history ⟨e, reply e⟩)
    (hrunning : sys.shared.transfer.running = true)
    (hclear : sys.shared.transfer.isStopped c = false) : Unstopped net c task' := by
  have hsettled := clear_some hrunning hclear
  obtain ⟨hgoes, -⟩ := Task.Goes.resumes covers_peerDownload h hstep (fun _ => hsettled)
    fun w next r hrest hgives => downloads_admits (Or.inl hsettled) hanswers
      (fun child job next finished hjoin => by
      obtain ⟨s, -, hrole, -⟩ := Task.Goes.waits h hjoin
      cases hrole) hrest hgives
  unfold Unstopped
  rw [hstep.job]
  exact hgoes

namespace Underway

theorem joins (h : Underway net sys) (htask : task ∈ sys.tasks) {child : Nat}
    {job : Job} {next : Finished nodeSignature → Proc JobResult}
    (hrest : task.rest = .await (.join child job) next) :
    (∃ c peer, job = .downloadFromPeer c peer (expectedOf task.job)) ∧
      .spawned child job ∈ task.history := by
  obtain ⟨s, -, -, hjoin⟩ := (h.keeps task htask).waits hrest
  exact hjoin

theorem joined (h : Underway net sys) {ctx : Option Nat}
    (hclear : ∀ c ∈ ctx, sys.shared.transfer.isStopped c = false) {child c : Nat} {peer : PeerNode}
    {expectedSha256 : Bytes} {finished : Finished nodeSignature}
    (hfinished : sys.finished child (.downloadFromPeer c peer expectedSha256) = some finished) :
    net.Joined ctx (.downloadFromPeer c peer expectedSha256) finished.result := by
  obtain ⟨t, ht, hjob, hresult, -⟩ := System.ended_of_finished hfinished
  have hmem := List.mem_of_getElem? ht
  have hends := (h.keeps t hmem).ended hresult
  rw [hjob] at hends
  by_cases hc : c ∈ ctx
  · have hclearEnds := (h.unstopped t hmem c peer expectedSha256 hjob (hclear c hc)).ended hresult
    rw [hjob] at hclearEnds
    cases hvalue : finished.result with
    | peerDownload result =>
        rw [hvalue] at hclearEnds
        exact fun _ hd => hclearEnds rfl hd
    | _ =>
        rw [hvalue] at hends
        exact hends.elim
  · cases hvalue : finished.result with
    | peerDownload result => exact fun hc' => absurd hc' hc
    | _ =>
        rw [hvalue] at hends
        exact hends.elim

theorem joined_of_wait (h : Underway net sys) (htask : task ∈ sys.tasks)
    {ctx : Option Nat} (hclear : ∀ c ∈ ctx, sys.shared.transfer.isStopped c = false) (child : Nat)
    (job : Job) (next : Finished nodeSignature → Proc JobResult) (finished : Finished nodeSignature)
    (hrest : task.rest = .await (.join child job) next)
    (hfinished : sys.finished child job = some finished) :
    net.Joined ctx job finished.result := by
  obtain ⟨⟨c, peer, rfl⟩, -⟩ := h.joins htask hrest
  exact h.joined hclear hfinished

theorem no_flag (sys : System nodeSignature) :
    ∀ c ∈ (none : Option Nat), sys.shared.transfer.isStopped c = false :=
  fun _ hc => nomatch hc

theorem keeps_step (h : Underway net sys)
    (hstep : P.Resumes reply sys sys' id task task' spawned)
    (hanswers : ∀ e next, task.rest = .await (.external e) next →
      net.Answers (expectedOf task.job) task.history ⟨e, reply e⟩) :
    Keeps net task' ∧ Raises ((roleOf task.job).Wins H (expectedOf task.job) task'.history)
      sys.shared sys'.shared := by
  have hmem := List.mem_of_getElem? hstep.found
  exact (h.keeps task hmem).step hstep hanswers (h.joined_of_wait hmem (no_flag sys))

end Underway

/-! ## Steps of the call and of its rivals -/

variable {c : Nat} {ends : List (Event nodeSignature) → JobResult → Prop}

theorem hasDownload_of_won (htruthful : sys.Truthful) (htask : task ∈ sys.tasks)
    (hwon : Won task.history) : HasDownload sys task := by
  obtain ⟨child, job, finished, hspawned, hjoined, hbrought⟩ := hwon
  obtain ⟨t, ht, -, hresult, -⟩ := htruthful.joined task htask child job finished hjoined
  obtain ⟨exchanges, value⟩ := finished
  cases value with
  | peerDownload result => exact ⟨child, job, t, result, hspawned, ht, hresult, hbrought⟩
  | _ => exact hbrought.elim

theorem served_of_unharmed (htruthful : sys'.Truthful)
    (hstep : P.Resumes reply sys sys' id task task' spawned) (hgoes : Unharmed net c ends task')
    (hstops : (∃ result, task'.result? = some result) ∨ ∃ w next, task'.rest = .await w next ∧
      (downloads net .call (expectedOf task'.job) (some c)).waits task'.history sys'.shared w) :
    Served net c ends sys' task' := by
  rcases hstops with ⟨result, hrest⟩ | ⟨w, next, hrest, hclear | hwon, -⟩
  · exact Or.inr ⟨hgoes, Or.inr (Or.inl (by simp [hrest]))⟩
  · exact Or.inr ⟨hgoes, Or.inl (hclear c rfl).2⟩
  · exact Or.inl (hasDownload_of_won htruthful (List.mem_of_getElem? hstep.getElem?_self) hwon)

theorem HasDownload.resumes {other : Task nodeSignature} (h : HasDownload sys other)
    (hstep : P.Resumes reply sys sys' id task task' spawned) : HasDownload sys' other := by
  obtain ⟨child, job, t, result, hspawned, ht, hresult, hsuccess⟩ := h
  exact ⟨child, job, t, result, hspawned, hstep.ended_kept ht hresult, hresult, hsuccess⟩

theorem HasDownload.resumes_self (h : HasDownload sys task)
    (hstep : P.Resumes reply sys sys' id task task' spawned) : HasDownload sys' task' := by
  obtain ⟨child, job, t, result, hspawned, ht, hresult, hsuccess⟩ := h
  refine ⟨child, job, t, result, ?_, hstep.ended_kept ht hresult, hresult, hsuccess⟩
  rcases hstep.wakes with ⟨w, next, r, -, -, hhistory, -⟩ | ⟨-, -, hhistory, -⟩
  · rw [hhistory]
    exact List.mem_append_left _ hspawned
  · rwa [hhistory]

theorem isStopped_of_active {t : TransferManager} (hactive : ∀ ctx,
    t.activeTransfers.lookup request.chunkId = some ctx → t.isStopped ctx = false) :
    t.isStopped (openContext request t).1 = false := by
  simp only [openContext, TransferManager.getOrCreateContext]
  split
  · rename_i ctx hlookup
    exact hactive ctx hlookup
  · simp [TransferManager.isStopped]

/-- A section that may raise a flag is one behind which a call adopts a copy. -/
theorem aboutToAdopt_of_wins (hkeeps : Keeps net task)
    (hstep : P.Resumes reply sys sys' id task task' spawned)
    (hwins : (roleOf task.job).Wins H (expectedOf task.job) task'.history) :
    ∃ other, task.job = .downloadChunk other ∧ AboutToAdopt H other.expectedSha256 sys task := by
  obtain ⟨other, hjob⟩ : ∃ other, task.job = .downloadChunk other := by
    cases hjob : task.job with
    | downloadChunk other => exact ⟨other, rfl⟩
    | _ =>
        rw [hjob] at hwins
        exact hwins.elim
  refine ⟨other, hjob, ?_⟩
  rw [hjob] at hwins
  rcases hwins with ⟨before, hlast, hresponse⟩ | ⟨before, event, hlast, hbrought⟩
  · obtain ⟨w, next, r, hrest, -, rfl, hevent⟩ := hkeeps.last_event hstep hlast
    cases w with
    | external e =>
        cases hevent
        exact Or.inl ⟨⟨next, hrest⟩, hresponse⟩
    | spawn job => cases hevent
    | join child job => cases hevent
  · obtain ⟨w, next, r, hrest, hgives, -, rfl⟩ := hkeeps.last_event hstep hlast
    cases w with
    | join child job => exact Or.inr ⟨child, job, next, r, hrest, hgives, hbrought⟩
    | external e => exact hbrought.elim
    | spawn job => exact hbrought.elim

theorem served_of_begin (hrunning : sys.shared.transfer.running = true)
    (htruthful : sys.Truthful)
    (hstep : (nodeProgram H fuel handler).Resumes reply sys sys' id
      ((nodeProgram H fuel handler).newTask (.downloadChunk request)) task' spawned)
    (hactive : ∀ ctx, sys.shared.transfer.activeTransfers.lookup request.chunkId = some ctx →
      sys.shared.transfer.isStopped ctx = false)
    (hthrown : ∀ history, ends history .thrown)
    (hends : ∀ history data, HasCalled net request
      (some (openContext request sys.shared.transfer).1) sys.shared history data →
        ends history (.chunk data)) :
    Served net (openContext request sys.shared.transfer).1 ends sys' task' := by
  have hclear := clear_some hrunning (isStopped_of_active hactive)
  have hmeets : ((nodeProgram H fuel handler).entry (.downloadChunk request)).Meets
      (downloads net .call request.expectedSha256
        (some (openContext request sys.shared.transfer).1))
      (fun h result found s => Raises (Role.call.Wins H request.expectedSha256 h) found s ∧
        ends h result) [] sys.shared sys.shared := by
    refine Meets.seq (meets_downloadChunk request hclear) ?_
    rintro history result found s ⟨hleaves, hcalled⟩
    exact ⟨hleaves, hends history result hcalled⟩
  rcases hstep.wakes with ⟨w, next, r, hrest, -⟩ | ⟨-, -, hhistory, -, hrun⟩
  · cases hrest
  · have hempty : task'.history = [] := hhistory
    rw [← hempty] at hmeets
    obtain ⟨hgoes, -, hstops⟩ := Task.goes_of_meets (R := downloads net .call
      request.expectedSha256 (some (openContext request sys.shared.transfer).1))
      (covers_call hthrown) hmeets hrun
    have hjob : expectedOf task'.job = request.expectedSha256 := by
      rw [hstep.job]
      rfl
    rw [← hjob] at hgoes hstops
    exact served_of_unharmed (htruthful.resumes hstep) hstep hgoes hstops

theorem served_self (hrunning : sys.shared.transfer.running = true) (htruthful : sys.Truthful)
    (hstep : P.Resumes reply sys sys' id task task' spawned)
    (hanswers : ∀ e next, task.rest = .await (.external e) next →
      net.Answers (expectedOf task.job) task.history ⟨e, reply e⟩)
    (hjoined : sys.shared.transfer.isStopped c = false →
      ∀ child job next finished, task.rest = .await (.join child job) next →
        sys.finished child job = some finished → net.Joined (some c) job finished.result)
    (hthrown : ∀ history, ends history .thrown) (hbegun : ¬task.Fresh)
    (hserved : Served net c ends sys task) :
    Served net c ends sys' task' := by
  rcases hserved with hdownload | ⟨hgoes, hclear⟩
  · exact Or.inl (hdownload.resumes_self hstep)
  · have hready : Clear (some c) sys.shared ∨ Closing H (expectedOf task.job) task := by
      rcases hclear with hclear | hended | hclosing
      · exact Or.inl (clear_some hrunning hclear)
      · exact absurd hstep.unfinished hended
      · exact Or.inr hclosing
    have hjoined : ∀ child job next finished, task.rest = .await (.join child job) next →
        sys.finished child job = some finished → net.Joined (some c) job finished.result := by
      intro child job next finished hrest hfinished
      rcases hready with hclear | ⟨⟨next', hclose⟩, -⟩
      · exact hjoined (hclear c rfl).2 child job next finished hrest hfinished
      · rw [hrest] at hclose
        cases hclose
    obtain ⟨hgoes', -, hstops⟩ := Task.Goes.resumes (covers_call hthrown) hgoes hstep
      (fun hfresh => absurd hfresh hbegun) fun w next r hrest hgives => downloads_admits hready
        hanswers hjoined hrest hgives
    rw [← hstep.job] at hgoes' hstops
    exact served_of_unharmed (htruthful.resumes hstep) hstep hgoes' hstops

theorem served_other (hstep : P.Resumes reply sys sys' id task task' spawned)
    {own : Task nodeSignature} (hserved : Served net c ends sys own)
    (hraised : sys.shared.transfer.isStopped c = false → sys'.shared.transfer.isStopped c = true →
      own.result? ≠ none ∨ HasDownload sys own ∨ Closing H (expectedOf own.job) own) :
    Served net c ends sys' own := by
  rcases hserved with hdownload | ⟨hgoes, hclear | hended⟩
  · exact Or.inl (hdownload.resumes hstep)
  · cases hnow : sys'.shared.transfer.isStopped c with
    | false => exact Or.inr ⟨hgoes, Or.inl hnow⟩
    | true =>
        rcases hraised hclear hnow with hended | hdownload | hclosing
        · exact Or.inr ⟨hgoes, Or.inr (Or.inl hended)⟩
        · exact Or.inl (hdownload.resumes hstep)
        · exact Or.inr ⟨hgoes, Or.inr (Or.inr hclosing)⟩
  · exact Or.inr ⟨hgoes, Or.inr hended⟩

/-- Calls are above the downloads that they spawn. -/
def levelOf : Job → Nat
  | .downloadChunk _ => 1
  | _ => 0

namespace Underway

theorem spawns (h : Underway net sys) (htask : task ∈ sys.tasks) {job : Job}
    {next : Nat → Proc JobResult} (hrest : task.rest = .await (.spawn job) next) :
    (∃ other, task.job = .downloadChunk other) ∧
      ∃ c peer, job = .downloadFromPeer c peer (expectedOf task.job) := by
  obtain ⟨s, -, hrole, hjob⟩ := (h.keeps task htask).waits hrest
  refine ⟨?_, hjob⟩
  rcases h.jobs task htask with hcall | ⟨c, peer, expectedSha256, hdownload⟩
  · exact hcall
  · rw [hdownload] at hrole
    cases hrole

theorem step (h : Underway net sys)
    (hstep : (nodeProgram H fuel handler).Resumes reply sys sys' id task task' spawned)
    (hanswers : ∀ e next, task.rest = .await (.external e) next →
      net.Answers (expectedOf task.job) task.history ⟨e, reply e⟩) : Underway net sys' := by
  have hmem := List.mem_of_getElem? hstep.found
  obtain ⟨hkeeps, hleaves⟩ := h.keeps_step hstep hanswers
  have hbefore : ∀ c, sys'.shared.transfer.isStopped c = false →
      sys.shared.transfer.isStopped c = false := by
    intro c hclear
    cases hstopped : sys.shared.transfer.isStopped c with
    | false => rfl
    | true =>
        rw [hleaves.kept c hstopped] at hclear
        cases hclear
  refine ⟨hleaves.running.trans h.running, hstep.forall_tasks ?_ h.jobs ?_,
    h.truthful.resumes hstep, hstep.forall_tasks hkeeps h.keeps ?_,
    hstep.forall_tasks ?_ ?_ ?_⟩
  · rw [hstep.job]
    exact h.jobs task hmem
  · intro job next hrest
    obtain ⟨-, c, peer, rfl⟩ := h.spawns hmem hrest
    exact Or.inr ⟨c, peer, _, rfl⟩
  · intro job next hrest
    obtain ⟨-, c, peer, rfl⟩ := h.spawns hmem hrest
    exact (keeps_newDownload c peer _).1
  · intro c peer expectedSha256 hjob hclear
    rw [hstep.job] at hjob
    have hclear := hbefore c hclear
    exact (h.unstopped task hmem c _ _ hjob hclear).step hstep hanswers h.running hclear
  · intro t ht c peer expectedSha256 hjob hclear
    exact h.unstopped t ht c _ _ hjob (hbefore c hclear)
  · intro job next hrest c peer expectedSha256 _ _
    obtain ⟨-, c', peer', rfl⟩ := h.spawns hmem hrest
    exact (keeps_newDownload c' peer' _).2 c

theorem data_of_hasDownload (h : Underway net sys) (htask : task ∈ sys.tasks)
    (hjob : task.job = .downloadChunk request) (hdownload : HasDownload sys task)
    {result : JobResult} (hresult : task.result? = some result) (hreturns : result ≠ .thrown) :
    ∃ data, result = .chunk (some data) := by
  obtain ⟨child, job, t, value, hspawned, ht, hvalue, hsuccess⟩ := hdownload
  have hends := (h.keeps task htask).ended hresult
  rw [hjob] at hends
  obtain ⟨data, rfl, hfailed⟩ := hends.resolve_left hreturns
  cases data with
  | some data => exact ⟨data, rfl⟩
  | none =>
      -- All downloads have been joined, and one of them had succeeded.
      obtain ⟨finished, hjoined, failure, hfailure, hfails⟩ := hfailed rfl child job hspawned
      obtain ⟨t', ht', -, hresult', -⟩ := h.truthful.joined task htask child job finished hjoined
      rw [ht] at ht'
      cases ht'
      rw [hvalue, hfailure] at hresult'
      cases hresult'
      rw [hsuccess] at hfails
      cases hfails

theorem remains (h : Underway net sys)
    (hstep : P.Resumes reply sys sys' id task task' spawned) :
    Relation.CutExpand Shorter (sys'.remains levelOf) (sys.remains levelOf) := by
  have hmem := List.mem_of_getElem? hstep.found
  refine (h.keeps task hmem).remains hstep levelOf fun job next hrest => ?_
  obtain ⟨⟨other, hother⟩, c, peer, rfl⟩ := h.spawns hmem hrest
  rw [hother]
  exact Nat.zero_lt_one

/-- A task that does not wait for another one goes on with any reply that the
suppliers may give. -/
theorem can_step (h : Underway net sys) (htask : sys.tasks[id]? = some task)
    (hresult : task.result? = none)
    (hanswers : ∀ e next, task.rest = .await (.external e) next →
      net.Answers (expectedOf task.job) task.history ⟨e, reply e⟩)
    (hjoins : ∀ child job next, task.rest = .await (.join child job) next →
      ∃ finished, sys.finished child job = some finished) :
    ∃ sys', P.step sys (.resume id reply) = some sys' := by
  have hmem := List.mem_of_getElem? htask
  have hgiven : ∀ w next, task.rest = .await w next → ∃ r, sys.Gives reply w r := by
    intro w next hrest
    cases w with
    | external e => exact ⟨reply e, rfl⟩
    | spawn job => exact ⟨sys.tasks.length, rfl⟩
    | join child job => exact hjoins child job next hrest
  have hjoined := h.joined_of_wait hmem (no_flag sys)
  refine (h.keeps task hmem).can_resume htask hresult (fun _ => clear_none _) fun w next hrest => ?_
  obtain ⟨r, hgives⟩ := hgiven w next hrest
  exact ⟨r, hgives, downloads_admits (Or.inl (clear_none _)) hanswers hjoined hrest hgives⟩

theorem exists_ready (h : Underway net sys) (hcall : sys.tasks[call]? = some task)
    (hresult : task.result? = none) :
    ∃ (id : Nat) (t : Task nodeSignature), (id = call ∨ ∃ job, .spawned id job ∈ task.history) ∧
      sys.tasks[id]? = some t ∧ t.result? = none ∧
        ∀ child job next, t.rest = .await (.join child job) next →
        ∃ finished, sys.finished child job = some finished := by
  have hmem := List.mem_of_getElem? hcall
  by_cases hblocked : ∃ child job next, task.rest = .await (.join child job) next ∧
      sys.finished child job = none
  · -- The call waits for a download, which waits for nobody.
    obtain ⟨child, job, next, hrest, hunfinished⟩ := hblocked
    obtain ⟨⟨c, peer, rfl⟩, hspawned⟩ := h.joins hmem hrest
    obtain ⟨t, ht, htjob⟩ := h.truthful.spawned task hmem child _ hspawned
    have htresult : t.result? = none := by
      cases hvalue : t.result? with
      | none => rfl
      | some value => simp [System.finished, ht, htjob, hvalue] at hunfinished
    refine ⟨child, t, Or.inr ⟨_, hspawned⟩, ht, htresult, fun child' job' next' hjoin => ?_⟩
    obtain ⟨s, -, hrole, -⟩ := (h.keeps t (List.mem_of_getElem? ht)).waits hjoin
    rw [htjob] at hrole
    cases hrole
  · refine ⟨call, task, Or.inl rfl, hcall, hresult, fun child job next hrest => ?_⟩
    cases hfinished : sys.finished child job with
    | none => exact absurd ⟨child, job, next, hrest, hfinished⟩ hblocked
    | some finished => exact ⟨finished, rfl⟩

theorem exists_reply (task : Task nodeSignature) {Q : (e : External) → e.Answer → Prop}
    (hanswer : ∀ e next, task.rest = .await (.external e) next → ∃ answer, Q e answer) :
    ∃ reply : (e : External) → e.Answer, ∀ e next, task.rest = .await (.external e) next →
      Q e (reply e) := by
  classical
  by_cases hasks : ∃ e next, task.rest = .await (.external e) next
  · obtain ⟨e, next, hrest⟩ := hasks
    obtain ⟨answer, hanswer⟩ := hanswer e next hrest
    refine ⟨Function.update (answers [] none fun _ _ => none) e answer, fun e' next' hrest' => ?_⟩
    rw [hrest] at hrest'
    cases hrest'
    rwa [Function.update_self]
  · exact ⟨answers [] none fun _ _ => none, fun e next hrest => absurd ⟨e, next, hrest⟩ hasks⟩

theorem initial {requests : List TransferRequest} {s : Node}
    (hrunning : s.transfer.running = true) :
    Underway net (callsOf (nodeProgram H fuel handler) requests s) := by
  have htasks : ∀ task ∈ (callsOf (nodeProgram H fuel handler) requests s).tasks,
      ∃ request, task = (nodeProgram H fuel handler).newTask (.downloadChunk request) := by
    intro task htask
    obtain ⟨request, -, rfl⟩ := List.mem_map.mp htask
    exact ⟨request, rfl⟩
  refine ⟨hrunning, fun task htask => ?_, ⟨fun task htask id job hmem => ?_,
    fun task htask id job finished hmem => ?_⟩, fun task htask => ?_,
    fun task htask c peer expectedSha256 hjob => ?_⟩
  · obtain ⟨other, rfl⟩ := htasks task htask
    exact Or.inl ⟨other, rfl⟩
  · obtain ⟨other, rfl⟩ := htasks task htask
    cases hmem
  · obtain ⟨other, rfl⟩ := htasks task htask
    cases hmem
  · obtain ⟨other, rfl⟩ := htasks task htask
    exact keeps_newCall other
  · obtain ⟨other, rfl⟩ := htasks task htask
    cases hjob

end Underway

theorem getElem?_callsOf {requests : List TransferRequest} (hcall : requests[call]? = some request)
    (s : Node) :
    (callsOf P requests s).tasks[call]? = some (P.newTask (.downloadChunk request)) := by
  rw [callsOf, List.getElem?_map, hcall]
  rfl

theorem tracked_callsOf {s : Node} (howned : Owned s.transfer) (requests : List TransferRequest) :
    Tracked H P (callsOf P requests s) := by
  refine ⟨howned, fun task htask => ?_⟩
  obtain ⟨other, -, rfl⟩ := List.mem_map.mp htask
  exact expected_newTask s trivial

theorem onlyTransfers_resume (id : Nat) (reply : (e : External) → e.Answer) :
    OnlyTransfers (.resume id reply) := by
  intro job hstart
  cases hstart

namespace Undefeated

theorem call_step (h : Undefeated net (nodeProgram H fuel handler) call request sys)
    (hsupplier : BeginsWithSupplier net call request sys (.resume id reply))
    (halone : LeavesAlone H call request sys (.resume id reply))
    (hsafe : ThrowsNothing H call request sys (.resume id reply))
    (hstep : (nodeProgram H fuel handler).Resumes reply sys sys' id task task' spawned)
    (hanswers : ∀ e next, task.rest = .await (.external e) next →
      net.Answers (expectedOf task.job) task.history ⟨e, reply e⟩) :
    ∃ task, sys'.tasks[call]? = some task ∧ task.job = .downloadChunk request ∧
      (task = (nodeProgram H fuel handler).newTask (.downloadChunk request) ∨
        ¬task.Fresh ∧ task.result? ≠ some .thrown ∧ ∃ c, Served net c HasData sys' task) := by
  obtain ⟨own, hown, hjob, hstate⟩ := h.call
  by_cases hid : id = call
  · subst hid
    rw [hstep.found] at hown
    cases hown
    refine ⟨task', hstep.getElem?_self, hstep.job.trans hjob, Or.inr ⟨hstep.not_fresh,
      h.tracked.not_thrown hstep hjob hsafe, ?_⟩⟩
    have hthrown : ∀ history, HasData history .thrown := fun _ => Or.inl rfl
    rcases hstate with hnew | ⟨hbegun, -, c, hserved⟩
    · have hfresh : task.Fresh := by
        rw [hnew]
        exact ⟨_, rfl⟩
      have hactive := halone.begins reply task rfl hstep.found hfresh
      have hcandidate := hsupplier reply task rfl hstep.found hfresh
      rw [hnew] at hstep
      refine ⟨_, served_of_begin h.running h.truthful hstep hactive hthrown
        fun history data hcalled => ?_⟩
      obtain ⟨data, rfl⟩ := Option.isSome_iff_exists.mp (hcalled.isSome h.running rfl hcandidate)
      exact Or.inr ⟨data, rfl⟩
    · refine ⟨c, served_self h.running h.truthful hstep hanswers (fun hclear => ?_) hthrown hbegun
        hserved⟩
      refine h.joined_of_wait (List.mem_of_getElem? hstep.found) fun c' hc' => ?_
      cases hc'
      exact hclear
  · refine ⟨own, hstep.getElem?_other (Ne.symm hid) hown, hjob, hstate.imp_right ?_⟩
    rintro ⟨hbegun, hreturns, c, hserved⟩
    refine ⟨hbegun, hreturns, c, served_other hstep hserved fun hclear hraised => ?_⟩
    obtain ⟨-, hleaves⟩ := h.keeps_step hstep hanswers
    have hwins := (hleaves.raised c hraised).resolve_left (by rw [hclear]; simp)
    obtain ⟨other, hother, hadopt⟩ := aboutToAdopt_of_wins
      (h.keeps task (List.mem_of_getElem? hstep.found)) hstep hwins
    rw [hjob]
    exact (halone.adopts id reply task other own rfl hid hstep.found hother hadopt
      hown).resolve_left
      hbegun

theorem step {action : Action nodeSignature}
    (h : Undefeated net (nodeProgram H fuel handler) call request sys)
    (hhonest : Honest net sys action) (hsupplier : BeginsWithSupplier net call request sys action)
    (halone : LeavesAlone H call request sys action)
    (hsafe : ThrowsNothing H call request sys action)
    (hstep : (nodeProgram H fuel handler).step sys action = some sys') :
    Undefeated net (nodeProgram H fuel handler) call request sys' := by
  obtain ⟨id, reply, rfl, hhonest⟩ := hhonest
  obtain ⟨task, task', spawned, hresumes⟩ := Program.resumes_of_step hstep
  have hanswers := fun e next => hhonest task e next hresumes.found
  exact ⟨h.toUnderway.step hresumes hanswers, h.tracked.step (onlyTransfers_resume id reply) hstep,
    h.call_step hsupplier halone hsafe hresumes hanswers⟩

theorem returnsData (h : Underway net sys) (hcall : sys.tasks[call]? = some task)
    (hserved : Served net c HasData sys task) {result : JobResult}
    (hresult : task.result? = some result) (hreturns : result ≠ .thrown)
    (hjob : task.job = .downloadChunk request) : ReturnsData call sys := by
  rcases hserved with hdownload | ⟨hgoes, -⟩
  · obtain ⟨data, rfl⟩ := h.data_of_hasDownload (List.mem_of_getElem? hcall) hjob hdownload hresult
      hreturns
    exact ⟨task, data, hcall, hresult⟩
  · obtain ⟨data, rfl⟩ := (hgoes.ended hresult).resolve_left hreturns
    exact ⟨task, data, hcall, hresult⟩

theorem progress (h : Undefeated net P call request sys) :
    ReturnsData call sys ∨ ∃ action sys', Honest net sys action ∧
      P.step sys action = some sys' := by
  obtain ⟨task, hcall, hjob, hstate⟩ := h.call
  cases hresult : task.result? with
  | some result =>
      rcases hstate with rfl | ⟨-, hreturns, c, hserved⟩
      · cases hresult
      · rw [hresult, ne_eq, Option.some.injEq] at hreturns
        exact Or.inl (returnsData h.toUnderway hcall hserved hresult hreturns hjob)
  | none =>
      obtain ⟨id, t, -, ht, hunfinished, hjoins⟩ := h.exists_ready hcall hresult
      obtain ⟨reply, hanswers⟩ := Underway.exists_reply t fun e next hrest => by
        obtain ⟨s, -, hanswer⟩ := (h.keeps t (List.mem_of_getElem? ht)).waits hrest
        exact hanswer
      obtain ⟨sys', hstep⟩ := h.can_step ht hunfinished hanswers hjoins
      refine Or.inr ⟨.resume id reply, sys', ⟨id, reply, rfl, fun t' e next ht' hrest => ?_⟩, hstep⟩
      rw [ht] at ht'
      cases ht'
      exact hanswers e next hrest

theorem initial {requests : List TransferRequest} {s : Node} (howned : Owned s.transfer)
    (hrunning : s.transfer.running = true) (hcall : requests[call]? = some request) :
    Undefeated net (nodeProgram H fuel handler) call request
      (callsOf (nodeProgram H fuel handler) requests s) :=
  ⟨Underway.initial hrunning, tracked_callsOf howned requests, _, getElem?_callsOf hcall s, rfl,
    Or.inl rfl⟩

end Undefeated

/-- A call with a candidate that delivers returns data in every run in which it
is left alone and throws nothing, however the calls and their downloads are
interleaved. -/
theorem downloadChunk_returnsData {first second : TransferRequest} {s : Node}
    (howned : Owned s.transfer) (hrunning : s.transfer.running = true)
    (hcall : [first, second][call]? = some request) :
    Inevitable (nodeProgram H fuel handler).step (Honest net)
      (fun sys action => Honest net sys action ∧ BeginsWithSupplier net call request sys action ∧
        LeavesAlone H call request sys action ∧ ThrowsNothing H call request sys action)
      (ReturnsData call) (callsOf (nodeProgram H fuel handler) [first, second] s) := by
  refine inevitable_of_wellFounded wellFounded_remains (System.remains levelOf)
    (I := Undefeated net (nodeProgram H fuel handler) call request) ?_ ?_
    (fun sys h => h.progress) (Undefeated.initial howned hrunning hcall)
  · rintro sys action sys' h ⟨⟨id, reply, rfl, -⟩, -⟩ hstep
    obtain ⟨task, task', spawned, hresumes⟩ := Program.resumes_of_step hstep
    exact h.remains hresumes
  · rintro sys action sys' h ⟨hhonest, hsupplier, halone, hsafe⟩ hstep
    exact h.step hhonest hsupplier halone hsafe hstep

end Tasks

/-! ## Two calls with one peer -/

def sampleResponse : Bytes :=
  headerBytes (hashedHeader Cache.ChunkManager.sampleSha256 .response 1 1 4 [1]) ++ ascii "c" ++ [1]

theorem verified_sampleResponse : Verified Cache.ChunkManager.sampleSha256
    sampleDownload.expectedSha256 sampleResponse :=
  ⟨[1], ⟨_, ascii "c", rfl, rfl, rfl, rfl, rfl, rfl⟩, fun _ => rfl⟩

def sampleSuppliers : Suppliers Cache.ChunkManager.sampleSha256 where
  delivers expectedSha256 address port := expectedSha256 = sampleDownload.expectedSha256 ∧
    address = samplePeer.address ∧ port = samplePeer.port
  response expectedSha256 address port := by
    rintro ⟨rfl, -, -⟩
    exact ⟨sampleResponse, verified_sampleResponse⟩

theorem sampleSuppliers_verified (expectedSha256 address : Bytes) (port : UInt16)
    (h : sampleSuppliers.delivers expectedSha256 address port) :
    Verified Cache.ChunkManager.sampleSha256 expectedSha256 sampleResponse := by
  obtain ⟨rfl, -, -⟩ := h
  exact verified_sampleResponse

def follows (stream : Bytes) (h : List (Event nodeSignature)) : NetExchange → Bool
  | ⟨.tcpConnect _ _, ok⟩ => ok
  | ⟨.streamRead _, r⟩ => (conversation h).all fun c =>
      (c.received ++ r.val).isPrefixOf stream && (r.val != [] || c.received == stream)
  | ⟨.streamWrite _, count⟩ => count.val != 0
  | ⟨.reserve _, ok⟩ => ok
  | _ => true

theorem answers_of_follows {H : Sha256} {net : Suppliers H} {expectedSha256 stream : Bytes}
    {h : List (Event nodeSignature)} {x : NetExchange}
    (hstream : ∀ address port, net.delivers expectedSha256 address port →
      Verified H expectedSha256 stream)
    (hx : follows stream h x = true) : net.Answers expectedSha256 h x where
  connects address port heq := by
    rw [heq] at hx
    cases hx
  goes_on c hc hdelivers := by
    have hverified := hstream _ _ hdelivers
    obtain ⟨e, answer⟩ := x
    cases e with
    | streamRead n =>
        change (conversation h).all (fun c => (c.received ++ answer.val).isPrefixOf stream &&
          (answer.val != [] || c.received == stream)) = true at hx
        rw [hc] at hx
        simp only [Option.all_some, Bool.and_eq_true, List.isPrefixOf_iff_prefix, Bool.or_eq_true,
          bne_iff_ne, beq_iff_eq] at hx
        refine ⟨⟨stream, hverified, hx.1⟩, fun hnil => ?_⟩
        rw [hx.2.resolve_left fun hne => hne hnil]
        exact hverified
    | streamWrite bytes =>
        change (answer.val != 0) = true at hx
        exact bne_iff_ne.mp hx
    | reserve n => exact hx
    | _ => trivial

def followsAll (stream : Bytes) (sys : System nodeSignature) : Action nodeSignature → Bool
  | .start _ => false
  | .resume id reply => sys.tasks[id]?.all fun task =>
      match task.rest with
      | .await (.external e) _ => follows stream task.history ⟨e, reply e⟩
      | _ => true

theorem honest_of_followsAll {H : Sha256} {net : Suppliers H} {stream : Bytes}
    {sys : System nodeSignature} {action : Action nodeSignature}
    (hstream : ∀ expectedSha256 address port, net.delivers expectedSha256 address port →
      Verified H expectedSha256 stream)
    (h : followsAll stream sys action = true) : Honest net sys action := by
  cases action with
  | start job => cases h
  | resume id reply =>
      refine ⟨id, reply, rfl, fun task e next htask hrest => answers_of_follows (hstream _) ?_⟩
      simpa [followsAll, htask, hrest] using h

theorem beginsWithSupplier_sampleDownload (call : Nat) (sys : System nodeSignature)
    (action : Action nodeSignature) :
    BeginsWithSupplier sampleSuppliers call sampleDownload sys action := by
  intro reply task _ _ _
  have hcandidates : (findCandidates sampleDownload sys.shared.transfer sys.shared.discovery).1 =
      [samplePeer] := rfl
  rw [hcandidates]
  refine ⟨samplePeer, by simp, fun other hother _ => ?_⟩
  rw [List.mem_singleton.mp hother]
  exact ⟨rfl, rfl, rfl⟩

def receives (id : Nat) : List (Action nodeSignature) :=
  [reads id [], reads id [], reads id [], reads id [],
    reads id (headerBytes (hashedHeader Cache.ChunkManager.sampleSha256 .response 1 1 4 [1])),
    reads id (ascii "c"), reads id []]

/-- Both calls begin and spawn their downloads, the first call wins, and then
the other download comes to look at the stop flag. -/
def stolenWin : List (Action nodeSignature) :=
  [reads 0 [], reads 1 [], reads 0 [], reads 1 []] ++ receives 2 ++
    [reads 2 [1], reads 2 [], reads 0 []] ++ receives 3 ++ [reads 3 [], reads 1 []]

def returnsNothing (task : Task nodeSignature) : Bool :=
  match task.result? with
  | some (.chunk none) => true
  | _ => false

theorem result_of_returnsNothing {task : Task nodeSignature} (h : returnsNothing task = true) :
    task.result? = some (.chunk none) := by
  unfold returnsNothing at h
  split at h
  · assumption
  · cases h

/-- The second call fails although its peer would have delivered. -/
theorem downloadChunk_stolenWin :
    ∃ sys task, runSteps (nodeProgram Cache.ChunkManager.sampleSha256 0 {}).step
        (callsOf (nodeProgram Cache.ChunkManager.sampleSha256 0 {})
          [sampleDownload, sampleDownload] sampleNode) stolenWin = some sys ∧
      EveryStep (nodeProgram Cache.ChunkManager.sampleSha256 0 {}).step
        (fun sys action => Honest sampleSuppliers sys action ∧
          BeginsWithSupplier sampleSuppliers 1 sampleDownload sys action)
        (callsOf (nodeProgram Cache.ChunkManager.sampleSha256 0 {})
          [sampleDownload, sampleDownload] sampleNode) stolenWin ∧
      sampleNode.transfer.running = true ∧ sys.tasks[1]? = some task ∧
      task.job = .downloadChunk sampleDownload ∧ task.result? = some (.chunk none) := by
  have hrun : ((runSteps (nodeProgram Cache.ChunkManager.sampleSha256 0 {}).step
      (callsOf (nodeProgram Cache.ChunkManager.sampleSha256 0 {})
        [sampleDownload, sampleDownload] sampleNode) stolenWin).any fun sys =>
          sys.tasks[1]?.any fun task =>
            decide (task.job = .downloadChunk sampleDownload) && returnsNothing task) = true := by
    decide +kernel
  have hfollows : EveryStep (nodeProgram Cache.ChunkManager.sampleSha256 0 {}).step
      (fun sys action => followsAll sampleResponse sys action = true)
      (callsOf (nodeProgram Cache.ChunkManager.sampleSha256 0 {})
        [sampleDownload, sampleDownload] sampleNode) stolenWin := by
    decide +kernel
  obtain ⟨sys, hsys, htask⟩ := (Option.any_eq_true _ _).mp hrun
  obtain ⟨task, htask, hends⟩ := (Option.any_eq_true _ _).mp htask
  simp only [Bool.and_eq_true, decide_eq_true_eq] at hends
  refine ⟨sys, task, hsys, hfollows.mono fun sys action h => ⟨?_, ?_⟩, rfl, htask, hends.1,
    result_of_returnsNothing hends.2⟩
  · exact honest_of_followsAll sampleSuppliers_verified h
  · exact beginsWithSupplier_sampleDownload 1 sys action

def mayAdopt (task : Task nodeSignature) : Bool :=
  match task.job, task.rest with
  | .downloadChunk _, .await (.join _ _) _ => true
  | .downloadChunk _, .await (.external .streamClose) _ => true
  | _, _ => false

theorem mayAdopt_of_aboutToAdopt {H : Sha256} {expectedSha256 : Bytes}
    {sys : System nodeSignature} {task : Task nodeSignature} {request : TransferRequest}
    (hjob : task.job = .downloadChunk request) (h : AboutToAdopt H expectedSha256 sys task) :
    mayAdopt task = true := by
  unfold mayAdopt
  rcases h with ⟨⟨next, hrest⟩, -⟩ | ⟨id, job, next, finished, hrest, -⟩
  · rw [hjob, hrest]
  · rw [hjob, hrest]

def hasDownload (sys : System nodeSignature) (task : Task nodeSignature) : Bool :=
  task.history.any fun
    | .spawned id _ => sys.tasks[id]?.any fun child =>
        match child.result? with
        | some (.peerDownload result) => result.success
        | _ => false
    | _ => false

theorem hasDownload_sound {sys : System nodeSignature} {task : Task nodeSignature}
    (h : hasDownload sys task = true) : HasDownload sys task := by
  obtain ⟨event, hmem, hevent⟩ := List.any_eq_true.mp h
  cases event with
  | spawned id job =>
      obtain ⟨child, hchild, hresult⟩ := (Option.any_eq_true _ _).mp hevent
      split at hresult
      · rename_i result hvalue
        exact ⟨id, job, child, result, hmem, hchild, hvalue, hresult⟩
      · cases hresult
  | external x => cases hevent
  | joined id job finished => cases hevent

def sparesCall (call : Nat) (chunkId : Bytes) (sys : System nodeSignature) :
    Action nodeSignature → Bool
  | .start _ => true
  | .resume id _ => sys.tasks[id]?.all fun task => sys.tasks[call]?.all fun own =>
      if id = call then
        (sys.shared.transfer.activeTransfers.lookup chunkId).all fun ctx =>
          !sys.shared.transfer.isStopped ctx
      else !mayAdopt task || hasDownload sys own

theorem leavesAlone_of_sparesCall {H : Sha256} {call : Nat} {request : TransferRequest}
    {sys : System nodeSignature} {action : Action nodeSignature}
    (h : sparesCall call request.chunkId sys action = true) :
    LeavesAlone H call request sys action where
  begins reply task haction htask _ ctx hctx := by
    subst haction
    simp only [sparesCall, htask, Option.all_some, if_true, hctx] at h
    simpa using h
  adopts id reply rival other task haction hid hrival hjob hadopt htask := by
    subst haction
    simp only [sparesCall, hrival, htask, Option.all_some, if_neg hid,
      mayAdopt_of_aboutToAdopt hjob hadopt, Bool.not_true, Bool.false_or] at h
    exact Or.inr (Or.inr (Or.inl (hasDownload_sound h)))

/-- Buffers can be reserved, and the temporary file can be removed. -/
def throwsNothing (request : TransferRequest) (sys : System nodeSignature) : Bool :=
  sys.shared.transfer.canReserve (totalSize request) &&
    sys.shared.transfer.progressFiles.removable (sys.shared.transfer.tempPath request.chunkId)

theorem throwsNothing_sound {H : Sha256} {call : Nat} {request : TransferRequest}
    {sys : System nodeSignature} {action : Action nodeSignature}
    (h : throwsNothing request sys = true) : ThrowsNothing H call request sys action := by
  obtain ⟨hreserves, hremoves⟩ := (Bool.and_eq_true _ _).mp h
  exact ⟨fun _ _ _ _ _ => hreserves, fun _ _ _ _ _ _ _ _ _ _ => hremoves⟩

def sharedWin : List (Action nodeSignature) :=
  [reads 0 [], reads 1 [], reads 0 [], reads 1 []] ++ receives 2 ++ receives 3 ++
    [reads 2 [1], reads 3 [1], reads 2 [], reads 3 [], reads 0 [], reads 1 []]

theorem downloadChunk_returnsData_sharedWin :
    sampleNode.transfer.running = true ∧
    Inevitable (nodeProgram Cache.ChunkManager.sampleSha256 0 {}).step (Honest sampleSuppliers)
      (fun sys action => Honest sampleSuppliers sys action ∧
        BeginsWithSupplier sampleSuppliers 1 sampleDownload sys action ∧
        LeavesAlone Cache.ChunkManager.sampleSha256 1 sampleDownload sys action ∧
        ThrowsNothing Cache.ChunkManager.sampleSha256 1 sampleDownload sys action)
      (ReturnsData 1) (callsOf (nodeProgram Cache.ChunkManager.sampleSha256 0 {})
        [sampleDownload, sampleDownload] sampleNode) ∧
    EveryStep (nodeProgram Cache.ChunkManager.sampleSha256 0 {}).step
      (fun sys action => Honest sampleSuppliers sys action ∧
        BeginsWithSupplier sampleSuppliers 1 sampleDownload sys action ∧
        LeavesAlone Cache.ChunkManager.sampleSha256 1 sampleDownload sys action ∧
        ThrowsNothing Cache.ChunkManager.sampleSha256 1 sampleDownload sys action)
      (callsOf (nodeProgram Cache.ChunkManager.sampleSha256 0 {})
        [sampleDownload, sampleDownload] sampleNode) sharedWin ∧
    ∃ sys, runSteps (nodeProgram Cache.ChunkManager.sampleSha256 0 {}).step
      (callsOf (nodeProgram Cache.ChunkManager.sampleSha256 0 {})
        [sampleDownload, sampleDownload] sampleNode) sharedWin = some sys ∧ ReturnsData 1 sys := by
  have hrun : ((runSteps (nodeProgram Cache.ChunkManager.sampleSha256 0 {}).step
      (callsOf (nodeProgram Cache.ChunkManager.sampleSha256 0 {})
        [sampleDownload, sampleDownload] sampleNode) sharedWin).any fun sys =>
          sys.tasks[1]?.any fun task => decide (returnedChunk task = some [1])) = true := by
    decide +kernel
  have hspares : EveryStep (nodeProgram Cache.ChunkManager.sampleSha256 0 {}).step
      (fun sys action => followsAll sampleResponse sys action = true ∧
        sparesCall 1 sampleDownload.chunkId sys action = true ∧
        throwsNothing sampleDownload sys = true)
      (callsOf (nodeProgram Cache.ChunkManager.sampleSha256 0 {})
        [sampleDownload, sampleDownload] sampleNode) sharedWin := by
    decide +kernel
  refine ⟨rfl, downloadChunk_returnsData (owned_of_empty rfl) rfl rfl,
    hspares.mono fun sys action h => ?_, ?_⟩
  · exact ⟨honest_of_followsAll sampleSuppliers_verified h.1,
      beginsWithSupplier_sampleDownload 1 sys action, leavesAlone_of_sparesCall h.2.1,
      throwsNothing_sound h.2.2⟩
  · obtain ⟨sys, hsys, htask⟩ := (Option.any_eq_true _ _).mp hrun
    obtain ⟨task, htask, hreturned⟩ := (Option.any_eq_true _ _).mp htask
    exact ⟨sys, hsys, task, [1], htask, result_of_returnedChunk (by simpa using hreturned)⟩

end ElioP2P.P2P
