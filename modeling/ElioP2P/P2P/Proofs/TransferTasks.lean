import ElioP2P.P2P.Proofs.CallSections

/-!
# A transfer manager at work

Systems in which the tasks are calls of `download_chunk`, the downloads that they
spawn, cancellations and operations of the discovery service, in any order and
with any answers of the peers.  `Tracked` is what is known of all tasks at any
time; a step of such a system changes what concerns one chunk at most.
-/

namespace ElioP2P.P2P

open ElioP2P.Library ElioP2P.Library.Coroutine ElioP2P.Proxy

def IsTransferJob : Job → Prop
  | .downloadChunk _ | .cancelTransfer _ | .discovery _ => True
  | _ => False

def OnlyTransfers (action : Action nodeSignature) : Prop :=
  ∀ job, action = .start job → IsTransferJob job

def Waits (task : Task nodeSignature) : Prop := ∃ w next, task.rest = .await w next

theorem Waits.unfinished {task : Task nodeSignature} (h : Waits task) : task.result? = none := by
  obtain ⟨w, next, hrest⟩ := h
  simp [Task.result?, hrest]

theorem Waits.not_fresh {task : Task nodeSignature} (h : Waits task) : ¬task.Fresh := by
  rintro ⟨next, hfresh⟩
  obtain ⟨w, next', hrest⟩ := h
  rw [hfresh] at hrest
  cases hrest

section Tasks

variable {H : Sha256} {fuel : Nat} {handler : RequestHandler}

/-! ## One call -/

def CallRuns (H : Sha256) (request : TransferRequest) (alone : Prop) (c : Nat)
    (task : Task nodeSignature) : Prop :=
  task.Runs (callSections H request c alone) (CallEnds H request alone)

def CallStops (H : Sha256) (request : TransferRequest) (alone : Prop) (c : Nat)
    (task : Task nodeSignature) (found s : Node) : Prop :=
  (∃ result, task.result? = some result ∧
    CallEnds H request alone task.history result found s) ∨
  (Waits task ∧ CallRuns H request alone c task ∧
    (callSections H request c alone).leaves task.history found s)

variable {request : TransferRequest} {alone : Prop} {c : Nat} {sys sys' : System nodeSignature}
  {reply : (e : External) → e.Answer} {id : Nat} {task task' : Task nodeSignature}
  {spawned : List (Task nodeSignature)} {P : Program nodeSignature}

theorem CallStops.changes {found s : Node} (h : CallStops H request alone c task found s) :
    ChangesOnly request.chunkId found.transfer s.transfer := by
  rcases h with ⟨result, -, ⟨data, -, hconcludes⟩ | ⟨-, haborts⟩⟩ | ⟨-, -, hleaves⟩
  · exact hconcludes.changes
  · exact haborts.changes
  · exact hleaves.1

theorem callStops_of_runs {found s : Node} (hruns : CallRuns H request alone c task)
    (hstops : (∃ result, task.result? = some result ∧
        CallEnds H request alone task.history result found s) ∨
      ∃ w next, task.rest = .await w next ∧
        (callSections H request c alone).leaves task.history found s ∧
        (callSections H request c alone).waits task.history s w) :
    CallStops H request alone c task found s := by
  rcases hstops with hended | ⟨w, next, hrest, hleaves, -⟩
  · exact Or.inl hended
  · exact Or.inr ⟨⟨w, next, hrest⟩, hruns, hleaves⟩

theorem covers_callSections : (callSections H request c alone).Covers (CallEnds H request alone) :=
  fun _ _ _ haborts => Or.inr ⟨rfl, haborts⟩

theorem callStops_of_begin
    (hstep : (nodeProgram H fuel handler).Resumes reply sys sys' id
      ((nodeProgram H fuel handler).newTask (.downloadChunk request)) task' spawned)
    (howned : Owned sys.shared.transfer) (hrunning : sys.shared.transfer.running = true)
    (hbegins : CanBegin request sys.shared) :
    CallStops H request alone (openContext request sys.shared.transfer).1 task' sys.shared
      sys'.shared := by
  have hmeets : ((nodeProgram H fuel handler).entry (.downloadChunk request)).Meets
      (callSections H request (openContext request sys.shared.transfer).1 alone)
      (CallEnds H request alone) [] sys.shared sys.shared := by
    refine Meets.seq (meets_downloadChunk_call howned hrunning hbegins) ?_
    intro h data found s hconcludes
    exact Or.inl ⟨data, rfl, hconcludes⟩
  rcases hstep.wakes with ⟨w, next, r, hrest, -⟩ | ⟨-, -, hhistory, -, hrun⟩
  · cases hrest
  · have hempty : task'.history = [] := hhistory
    rw [← hempty] at hmeets
    obtain ⟨hruns, hstops⟩ := Task.runs_of_meets covers_callSections hmeets hrun
    exact callStops_of_runs hruns hstops

theorem ends_of_early
    (hstep : (nodeProgram H fuel handler).Resumes reply sys sys' id
      ((nodeProgram H fuel handler).newTask (.downloadChunk request)) task' spawned)
    (hearly : sys.shared.transfer.running = false ∨ ¬CanBegin request sys.shared) :
    task'.result? = some (earlyEnd request sys.shared) ∧ sys'.shared =
      if sys.shared.transfer.running then (beginDownload request sys.shared).2 else sys.shared := by
  have hthrows : earlyEnd request sys.shared = .thrown → earlyEnd request sys.shared = .thrown ∧
      (beginDownload request sys.shared).2 = if sys.shared.transfer.running then
        (beginDownload request sys.shared).2 else sys.shared := by
    intro hthrown
    refine ⟨hthrown, ?_⟩
    cases hrunning : sys.shared.transfer.running with
    | false => simp [earlyEnd, hrunning] at hthrown
    | true => rfl
  have hmeets : ((nodeProgram H fuel handler).entry (.downloadChunk request)).Meets
      (⟨fun _ => True, fun _ _ _ _ => True, fun _ _ _ => True, fun _ _ _ => False,
        fun _ _ s => earlyEnd request sys.shared = .thrown ∧
          s = if sys.shared.transfer.running then (beginDownload request sys.shared).2
            else sys.shared⟩ : Regime nodeSignature)
      (fun _ result _ s => result = earlyEnd request sys.shared ∧
        s = if sys.shared.transfer.running then (beginDownload request sys.shared).2
          else sys.shared) [] sys.shared sys.shared := by
    refine Meets.seq (meets_downloadChunk_early hearly hthrows) ?_
    rintro h data found s ⟨-, hresult, hs⟩
    exact ⟨hresult, hs⟩
  rcases hstep.wakes with ⟨w, next, r, hrest, -⟩ | ⟨-, -, -, -, hrun⟩
  · cases hrest
  · rcases hmeets.advance hrun with (⟨result, hrest, rfl, hs⟩ | ⟨hrest, hthrown, hs⟩) |
      ⟨w, next, -, -, hwaits, -⟩
    · exact ⟨by simp [Task.result?, hrest], hs⟩
    · exact ⟨by simp [Task.result?, hrest, hthrown], hs⟩
    · exact hwaits.elim

theorem CallRuns.resumes (hruns : CallRuns H request alone c task)
    (hstep : P.Resumes reply sys sys' id task task' spawned) (hwaits : Waits task)
    (howned : Owned sys.shared.transfer) (howns : Owns sys.shared.transfer request.chunkId c)
    (hagrees : alone → SizeAgrees c task.history sys.shared.transfer)
    (htold : ∀ w next r, task.rest = .await w next → sys.Gives reply w r → Told H w r) :
    CallStops H request alone c task' sys.shared sys'.shared := by
  obtain ⟨hruns', hstops⟩ := Task.Runs.resumes covers_callSections hruns hstep
    (fun hfresh => absurd hfresh hwaits.not_fresh)
    fun w next r hrest hgives => ⟨⟨howned, howns, hagrees⟩, htold w next r hrest hgives⟩
  exact callStops_of_runs hruns' hstops

/-- No exception can leave the call in this step: where it begins it gets a
buffer for its result, and where it goes on with a copy of the chunk the
temporary file can be removed. -/
structure ThrowsNothing (H : Sha256) (call : Nat) (request : TransferRequest)
    (sys : System nodeSignature) (action : Action nodeSignature) : Prop where
  reserves : ∀ reply task, action = .resume call reply → sys.tasks[call]? = some task →
    task.Fresh → sys.shared.transfer.canReserve (totalSize request) = true
  removes : ∀ reply task w next r, action = .resume call reply → sys.tasks[call]? = some task →
    task.rest = .await w next → sys.Gives reply w r →
      HasCopy H request (task.history ++ [.of w r]) →
        sys.shared.transfer.progressFiles.removable
          (sys.shared.transfer.tempPath request.chunkId) = true

/-! ## All tasks -/

def Expected (H : Sha256) (P : Program nodeSignature) (s : Node) : Job → Task nodeSignature → Prop
  | .downloadChunk request, task => task = P.newTask (.downloadChunk request) ∨
      task.result? ≠ none ∨ Waits task ∧ ∃ c, Owns s.transfer request.chunkId c ∧
        CallRuns H request False c task
  | .downloadFromPeer _ peer expectedSha256, task =>
      task.Goes (peerSections H) (DownloadEnds H peer expectedSha256)
  | .cancelTransfer chunkId, task =>
      task = P.newTask (.cancelTransfer chunkId) ∨ task.result? ≠ none
  | .discovery op, task => task = P.newTask (.discovery op) ∨ task.result? ≠ none
  | _, _ => False

structure Tracked (H : Sha256) (P : Program nodeSignature) (sys : System nodeSignature) : Prop where
  owned : Owned sys.shared.transfer
  tasks : ∀ task ∈ sys.tasks, Expected H P sys.shared task.job task

def Concerns : Job → Bytes → Prop
  | .downloadChunk request, chunkId => request.chunkId = chunkId
  | .cancelTransfer chunkId', chunkId => chunkId' = chunkId
  | _, _ => True

theorem exists_concerns (job : Job) : ∃ chunkId, Concerns job chunkId := by
  cases job with
  | downloadChunk request => exact ⟨request.chunkId, rfl⟩
  | cancelTransfer chunkId => exact ⟨chunkId, rfl⟩
  | _ => exact ⟨[], trivial⟩

theorem Expected.mono {s s' : Node} {job : Job}
    (howns : ∀ chunkId c, Owns s.transfer chunkId c → Owns s'.transfer chunkId c)
    (h : Expected H P s job task) : Expected H P s' job task := by
  cases job with
  | downloadChunk request =>
      rcases h with hnew | hended | ⟨hwaits, c, hc, hruns⟩
      · exact Or.inl hnew
      · exact Or.inr (Or.inl hended)
      · exact Or.inr (Or.inr ⟨hwaits, c, howns _ _ hc, hruns⟩)
  | _ => exact h

theorem expected_newTask (s : Node) {job : Job} (hjob : IsTransferJob job) :
    Expected H P s job (P.newTask job) := by
  cases job with
  | downloadChunk request => exact Or.inl rfl
  | cancelTransfer chunkId => exact Or.inl rfl
  | discovery op => exact Or.inl rfl
  | _ => exact hjob.elim

theorem section_ends {job : Job} {f : Node → JobResult × Node}
    (hentry : (nodeProgram H fuel handler).entry job = do
      let value ← Coroutine.atomically (S := nodeSignature) fun s : Node => some (f s)
      pure value)
    (hstep : (nodeProgram H fuel handler).Resumes reply sys sys' id
      ((nodeProgram H fuel handler).newTask job) task' spawned) :
    task'.result? ≠ none ∧ sys'.shared = (f sys.shared).2 := by
  rcases hstep.wakes with ⟨w, next, r, hrest, -⟩ | ⟨-, -, -, -, hrun⟩
  · cases hrest
  · change ((nodeProgram H fuel handler).entry job).advance sys.shared none = _ at hrun
    rw [hentry] at hrun
    change some ((f sys.shared).2, _, Coroutine.done (f sys.shared).1) = _ at hrun
    simp only [Option.some.injEq, Prod.mk.injEq] at hrun
    obtain ⟨hshared, -, hrest⟩ := hrun
    exact ⟨by simp [Task.result?, ← hrest], hshared.symm⟩

namespace Tracked

theorem told (h : Tracked H P sys) {w : Wait nodeSignature} {r : w.Reply}
    (hwaits : ∀ child job, w = .join child job → ∃ c peer expectedSha256,
      job = .downloadFromPeer c peer expectedSha256)
    (hgives : sys.Gives reply w r) : Told H w r := by
  cases w with
  | external e => trivial
  | spawn job => trivial
  | join child job =>
      obtain ⟨c, peer, expectedSha256, rfl⟩ := hwaits child job rfl
      obtain ⟨t, ht, hjob, hresult, hexchanges⟩ := System.ended_of_finished hgives
      have hexpected := h.tasks t (List.mem_of_getElem? ht)
      rw [hjob] at hexpected
      obtain ⟨-, hends⟩ := Task.Goes.ended hexpected hresult
      rw [hexchanges] at hends
      exact hends

theorem call_told (h : Tracked H P sys) (hruns : CallRuns H request alone c task)
    {w : Wait nodeSignature} {next : w.Reply → Proc JobResult} {r : w.Reply}
    (hrest : task.rest = .await w next) (hgives : sys.Gives reply w r) : Told H w r := by
  refine h.told (fun child job hw => ?_) hgives
  subst hw
  obtain ⟨s, hwaits⟩ := Task.Runs.waits hruns hrest
  exact hwaits

variable (h : Tracked H (nodeProgram H fuel handler) sys)
  (hstep : (nodeProgram H fuel handler).Resumes reply sys sys' id task task' spawned)
include h hstep

theorem download_step {ctx : Nat} {peer : PeerNode} {expectedSha256 : Bytes}
    (hjob : task.job = .downloadFromPeer ctx peer expectedSha256) :
    task'.Goes (peerSections H) (DownloadEnds H peer expectedSha256) ∧
      Quiet sys.shared sys'.shared := by
  have hgoes := h.tasks task (List.mem_of_getElem? hstep.found)
  rw [hjob] at hgoes
  obtain ⟨hgoes', hquiet, -⟩ := Task.Goes.resumes (fun _ _ _ => False.elim) hgoes hstep
    (fun _ => trivial)
    fun w next r hrest hgives => h.told (fun child job hw => by
      subst hw
      obtain ⟨s, hwaits⟩ := Task.Goes.waits hgoes hrest
      exact hwaits.elim) hgives
  exact ⟨hgoes', hquiet⟩

theorem cancel_step {chunkId : Bytes} (hjob : task.job = .cancelTransfer chunkId) :
    task'.result? ≠ none ∧
      sys'.shared = { sys.shared with transfer := sys.shared.transfer.cancelTransfer chunkId } := by
  have hexpected := h.tasks task (List.mem_of_getElem? hstep.found)
  rw [hjob] at hexpected
  rcases hexpected with rfl | hended
  · exact section_ends (f := fun s =>
      (.ended, { s with transfer := s.transfer.cancelTransfer chunkId })) rfl hstep
  · exact absurd hstep.unfinished hended

theorem discovery_step {op : NodeDiscovery.Op} (hjob : task.job = .discovery op) :
    task'.result? ≠ none ∧
      sys'.shared = { sys.shared with discovery := sys.shared.discovery.apply op } := by
  have hexpected := h.tasks task (List.mem_of_getElem? hstep.found)
  rw [hjob] at hexpected
  rcases hexpected with rfl | hended
  · exact section_ends (f := fun s =>
      (.ended, { s with discovery := s.discovery.apply op })) rfl hstep
  · exact absurd hstep.unfinished hended

theorem call_step (hjob : task.job = .downloadChunk request) :
    (task = (nodeProgram H fuel handler).newTask (.downloadChunk request) ∧
      (sys.shared.transfer.running = false ∨ ¬CanBegin request sys.shared) ∧
      task'.result? = some (earlyEnd request sys.shared) ∧ sys'.shared =
        if sys.shared.transfer.running then (beginDownload request sys.shared).2 else sys.shared) ∨
    ∃ c, CallStops H request False c task' sys.shared sys'.shared := by
  have hexpected := h.tasks task (List.mem_of_getElem? hstep.found)
  rw [hjob] at hexpected
  rcases hexpected with rfl | hended | ⟨hwaits, c, howns, hruns⟩
  · by_cases hearly : sys.shared.transfer.running = false ∨ ¬CanBegin request sys.shared
    · exact Or.inl ⟨rfl, hearly, ends_of_early hstep hearly⟩
    · rw [not_or, Bool.not_eq_false, not_not] at hearly
      exact Or.inr ⟨_, callStops_of_begin hstep h.owned hearly.1 hearly.2⟩
  · exact absurd hstep.unfinished hended
  · exact Or.inr ⟨c, hruns.resumes hstep hwaits h.owned howns False.elim
      fun w next r hrest hgives => h.call_told hruns hrest hgives⟩

/-- An exception leaves a call behind its race when it goes on with a copy. -/
theorem copy_of_aborts (hjob : task.job = .downloadChunk request)
    (haborts : Aborts H request task'.history sys.shared sys'.shared) :
    ∃ w next r, task.rest = .await w next ∧ sys.Gives reply w r ∧
      HasCopy H request (task.history ++ [.of w r]) := by
  have hcopy := haborts.copy
  rcases hstep.wakes with ⟨w, next, r, hrest, hgives, hhistory, -⟩ | ⟨hawait, hnone, hhistory, -⟩
  · rw [hhistory] at hcopy
    exact ⟨w, next, r, hrest, hgives, hcopy⟩
  · have hexpected := h.tasks task (List.mem_of_getElem? hstep.found)
    rw [hjob] at hexpected
    rw [hhistory] at hcopy
    rcases hexpected with rfl | hended | ⟨⟨w, next, hwaits⟩, -⟩
    · exact absurd hcopy not_hasCopy_nil
    · exact absurd hnone hended
    · exact absurd hwaits (hawait w next)

/-- A call that throws nothing in a step has not ended with an exception. -/
theorem not_thrown (hjob : task.job = .downloadChunk request)
    (hsafe : ThrowsNothing H id request sys (.resume id reply)) :
    task'.result? ≠ some .thrown := by
  intro hthrown
  rcases h.call_step hstep hjob with ⟨rfl, -, hended, -⟩ | ⟨c, ⟨result, hended, hends⟩ | hgoes⟩
  · have hreserves := hsafe.reserves reply _ rfl hstep.found ⟨_, rfl⟩
    rw [hthrown, Option.some.injEq, earlyEnd] at hended
    split at hended
    · cases hbegun : (beginDownload request sys.shared).1 with
      | unreserved =>
          rw [canReserve_of_unreserved hbegun] at hreserves
          cases hreserves
      | nobody =>
          rw [hbegun] at hended
          cases hended
      | race c candidates selected =>
          rw [hbegun] at hended
          cases hended
    · cases hended
  · rw [hthrown, Option.some.injEq] at hended
    subst hended
    rcases hends with ⟨data, hdata, -⟩ | ⟨-, haborts⟩
    · cases hdata
    · obtain ⟨w, next, r, hrest, hgives, hcopy⟩ := h.copy_of_aborts hstep hjob haborts
      have hremoves := hsafe.removes reply task w next r rfl hstep.found hrest hgives hcopy
      rw [haborts.refused] at hremoves
      cases hremoves
  · rw [hgoes.1.unfinished] at hthrown
    cases hthrown

theorem changesOnly {chunkId : Bytes} (hchunk : Concerns task.job chunkId) :
    ChangesOnly chunkId sys.shared.transfer sys'.shared.transfer := by
  have hexpected := h.tasks task (List.mem_of_getElem? hstep.found)
  cases hjob : task.job with
  | downloadChunk request =>
      rw [hjob] at hchunk
      subst hchunk
      rcases h.call_step hstep hjob with ⟨-, -, -, hshared⟩ | ⟨c, hstops⟩
      · rw [hshared]
        split
        · exact (changesOnly_beginDownload h.owned request).1
        · exact ChangesOnly.refl _ _
      · exact hstops.changes
  | downloadFromPeer ctx peer expectedSha256 =>
      exact (h.download_step hstep hjob).2.changesOnly chunkId
  | cancelTransfer other =>
      rw [hjob] at hchunk
      subst hchunk
      rw [(h.cancel_step hstep hjob).2]
      exact changesOnly_cancelTransfer h.owned other
  | discovery op =>
      rw [(h.discovery_step hstep hjob).2]
      exact ChangesOnly.refl _ _
  | _ =>
      rw [hjob] at hexpected
      exact hexpected.elim

omit h hstep in
theorem step {action : Action nodeSignature} (h : Tracked H (nodeProgram H fuel handler) sys)
    (honly : OnlyTransfers action)
    (hstep : (nodeProgram H fuel handler).step sys action = some sys') :
    Tracked H (nodeProgram H fuel handler) sys' := by
  rcases Program.step_cases hstep with ⟨job, rfl, rfl⟩ |
    ⟨id, reply, task, task', spawned, rfl, hresumes⟩
  · refine ⟨h.owned, fun task htask => ?_⟩
    rcases List.mem_append.mp htask with hold | hnew
    · exact h.tasks task hold
    · rw [List.mem_singleton.mp hnew]
      exact expected_newTask sys.shared (honly job rfl)
  have hmem := List.mem_of_getElem? hresumes.found
  have hexpected := h.tasks task hmem
  obtain ⟨chunkId, hconcerns⟩ := exists_concerns task.job
  have hchanges := h.changesOnly hresumes hconcerns
  refine ⟨hchanges.owned h.owned, hresumes.forall_tasks ?_
    (fun t ht => (h.tasks t ht).mono hchanges.owns) ?_⟩
  · rw [hresumes.job]
    cases hjob : task.job with
    | downloadChunk request =>
        rcases h.call_step hresumes hjob with ⟨-, -, hended, -⟩ |
          ⟨c, ⟨result, hended, -⟩ | hgoes⟩
        · exact Or.inr (Or.inl (by simp [hended]))
        · exact Or.inr (Or.inl (by simp [hended]))
        · obtain ⟨hwaits, hruns, -, -, howns, -⟩ := hgoes
          exact Or.inr (Or.inr ⟨hwaits, c, howns, hruns⟩)
    | downloadFromPeer ctx peer expectedSha256 => exact (h.download_step hresumes hjob).1
    | cancelTransfer other => exact Or.inr (h.cancel_step hresumes hjob).1
    | discovery op => exact Or.inr (h.discovery_step hresumes hjob).1
    | _ =>
        rw [hjob] at hexpected
        exact hexpected.elim
  · intro job next hrest
    -- Only calls spawn, and only downloads.
    cases hjob : task.job with
    | downloadChunk request =>
        rw [hjob] at hexpected
        rcases hexpected with rfl | hended | ⟨-, c, -, hruns⟩
        · cases hrest
        · exact absurd hresumes.unfinished hended
        · obtain ⟨s, ctx, peer, expectedSha256, rfl⟩ := Task.Runs.waits hruns hrest
          exact goes_newDownload ctx peer
    | downloadFromPeer ctx peer expectedSha256 =>
        rw [hjob] at hexpected
        obtain ⟨s, hwaits⟩ := Task.Goes.waits hexpected hrest
        exact hwaits.elim
    | cancelTransfer other =>
        rw [hjob] at hexpected
        rcases hexpected with rfl | hended
        · cases hrest
        · exact absurd hresumes.unfinished hended
    | discovery op =>
        rw [hjob] at hexpected
        rcases hexpected with rfl | hended
        · cases hrest
        · exact absurd hresumes.unfinished hended
    | _ =>
        rw [hjob] at hexpected
        exact hexpected.elim

omit h hstep in
theorem initial {s : Node} (howned : Owned s.transfer) :
    Tracked H (nodeProgram H fuel handler) (.initial s) :=
  ⟨howned, fun _ htask => nomatch htask⟩

end Tracked

end Tasks

end ElioP2P.P2P
