import ElioP2P.P2P.Proofs.Rivals
import ElioP2P.P2P.Proofs.TransferTasks

/-!
# Chunks that nobody downloads

`download_chunk` makes the entry of its chunk before it reserves a buffer and
looks for peers.  Behind that point the exit for a call that finds no peers does
not remove the entry, and neither do the exceptions of the reservation and of the
removal of the temporary file.  As long as no call leaves alone in one of these
ways, a chunk that is not being downloaded has no entry.
-/

namespace ElioP2P.P2P

open ElioP2P.Library ElioP2P.Library.Coroutine ElioP2P.Proxy

structure IsDownloading (chunkId : Bytes) (task : Task nodeSignature) : Prop where
  job : ∃ request, task.job = .downloadChunk request ∧ request.chunkId = chunkId
  begun : ¬task.Fresh
  unfinished : task.result? = none

def InProgress (chunkId : Bytes) (sys : System nodeSignature) : Prop :=
  ∃ task ∈ sys.tasks, IsDownloading chunkId task

/-- The manager keeps nothing of earlier transfers of the chunk: there is no
entry, a cancellation does nothing, the statistics count the other chunks, and
the next call finds its stop flag clear. -/
structure Forgotten (chunkId : Bytes) (t : TransferManager) : Prop where
  entry : t.activeTransfers.lookup chunkId = none
  cancel : t.cancelTransfer chunkId = t
  counted : t.activeTransferCount =
    UInt64.ofNat (t.activeTransfers.entries.filter fun entry => entry.1 ≠ chunkId).length
  clear : ∀ request : TransferRequest, request.chunkId = chunkId →
    (openContext request t).2.isStopped (openContext request t).1 = false

/-- A call for the chunk that begins in this step gets its buffer and has a peer
to ask, or another call for the chunk is in progress. -/
def BeginsProperly (chunkId : Bytes) (sys : System nodeSignature)
    (action : Action nodeSignature) : Prop :=
  ∀ id reply task request, action = .resume id reply → sys.tasks[id]? = some task → task.Fresh →
    task.job = .downloadChunk request → request.chunkId = chunkId →
      sys.shared.transfer.running = true →
        CanBegin request sys.shared ∨ InProgress chunkId sys

/-- A call for the chunk that goes on with a copy of it can remove the temporary
file, or there is no entry, or another call for the chunk is in progress. -/
def RemovesTemp (H : Sha256) (chunkId : Bytes) (sys : System nodeSignature)
    (action : Action nodeSignature) : Prop :=
  ∀ id reply task request w next r, action = .resume id reply → sys.tasks[id]? = some task →
    task.job = .downloadChunk request → request.chunkId = chunkId →
      task.rest = .await w next → sys.Gives reply w r →
        HasCopy H request (task.history ++ [.of w r]) →
        sys.shared.transfer.progressFiles.removable (sys.shared.transfer.tempPath chunkId) = true ∨
          sys.shared.transfer.activeTransfers.lookup chunkId = none ∨
          ∃ other t, other ≠ id ∧ sys.tasks[other]? = some t ∧ IsDownloading chunkId t

theorem forgotten_iff {chunkId : Bytes} {t : TransferManager} :
    Forgotten chunkId t ↔ t.activeTransfers.lookup chunkId = none := by
  refine ⟨Forgotten.entry, fun hnone => ⟨hnone, ?_, ?_, ?_⟩⟩
  · simp only [TransferManager.cancelTransfer, hnone]
  · have hothers : t.activeTransfers.entries.filter (fun entry => entry.1 ≠ chunkId) =
        t.activeTransfers.entries := by
      refine List.filter_eq_self.mpr fun entry hentry => ?_
      rw [decide_eq_true_eq]
      rintro rfl
      exact (AList.lookup_eq_none.mp hnone) (AList.mem_keys.mpr (List.mem_map_of_mem hentry))
    rw [hothers]
    rfl
  · rintro request rfl
    rw [isStopped_openContext]
    refine isStopped_of_active fun ctx hlookup => ?_
    rw [hnone] at hlookup
    cases hlookup

theorem lookup_getOrCreateContext (t : TransferManager) (chunkId : Bytes) (resume : Bool) :
    (t.getOrCreateContext chunkId resume).2.activeTransfers.lookup chunkId =
      some (t.getOrCreateContext chunkId resume).1 := by
  unfold TransferManager.getOrCreateContext
  split
  · assumption
  · exact AList.lookup_insert _

theorem lookup_openContext (request : TransferRequest) (t : TransferManager) :
    (openContext request t).2.activeTransfers.lookup request.chunkId =
      some (openContext request t).1 := by
  have hset : ∀ (t : TransferManager) c f,
      (t.updateContext c f).activeTransfers = t.activeTransfers := fun _ _ _ => rfl
  simp only [openContext, hset, apply_ite TransferManager.activeTransfers, ite_self]
  exact lookup_getOrCreateContext _ _ _

theorem lookup_beginDownload (request : TransferRequest) (s : Node) :
    (beginDownload request s).2.transfer.activeTransfers.lookup request.chunkId =
      some (openContext request s.transfer).1 := by
  obtain ⟨stats, shuffles, reservations, discovery, hbegun⟩ := beginDownload_frame request s
  rw [hbegun]
  exact lookup_openContext request s.transfer

section Runs

variable {H : Sha256} {fuel : Nat} {handler : RequestHandler} {chunkId : Bytes}
  {sys sys' : System nodeSignature} {reply : (e : External) → e.Answer} {id : Nat}
  {task task' : Task nodeSignature} {spawned : List (Task nodeSignature)}

theorem InProgress.resumes {P : Program nodeSignature} (h : InProgress chunkId sys)
    (hstep : P.Resumes reply sys sys' id task task' spawned)
    (hother : ¬IsDownloading chunkId task) : InProgress chunkId sys' := by
  obtain ⟨t, ht, hdownloading⟩ := h
  obtain ⟨other, hfound⟩ := List.mem_iff_getElem?.mp ht
  refine ⟨t, List.mem_of_getElem? (hstep.getElem?_other ?_ hfound), hdownloading⟩
  rintro rfl
  rw [hstep.found] at hfound
  cases hfound
  exact hother hdownloading

theorem inProgress_start {P : Program nodeSignature} {job : Job} :
    InProgress chunkId { sys with tasks := sys.tasks ++ [P.newTask job] } ↔
      InProgress chunkId sys := by
  constructor
  · rintro ⟨t, ht, hdownloading⟩
    rcases List.mem_append.mp ht with hold | hnew
    · exact ⟨t, hold, hdownloading⟩
    · rw [List.mem_singleton.mp hnew] at hdownloading
      exact absurd ⟨_, rfl⟩ hdownloading.begun
  · rintro ⟨t, ht, hdownloading⟩
    exact ⟨t, List.mem_append_left _ ht, hdownloading⟩

namespace Tracked

variable (h : Tracked H (nodeProgram H fuel handler) sys)
  (hstep : (nodeProgram H fuel handler).Resumes reply sys sys' id task task' spawned)
include h hstep

theorem changes_other (hidle : sys.shared.transfer.activeTransfers.lookup chunkId = none)
    (hother : ∀ request, task.job = .downloadChunk request → request.chunkId ≠ chunkId) :
    ∃ concerned, concerned ≠ chunkId ∧
      ChangesOnly concerned sys.shared.transfer sys'.shared.transfer := by
  have helse : chunkId ++ [0] ≠ chunkId := by simp
  cases hjob : task.job with
  | downloadChunk request =>
      exact ⟨_, hother request hjob, h.changesOnly hstep (by rw [hjob]; rfl)⟩
  | cancelTransfer cancelled =>
      by_cases hsame : cancelled = chunkId
      · subst hsame
        refine ⟨_, helse, ?_⟩
        rw [(h.cancel_step hstep hjob).2, (forgotten_iff.mpr hidle).cancel]
        exact ChangesOnly.refl _ _
      · exact ⟨_, hsame, h.changesOnly hstep (by rw [hjob]; rfl)⟩
  | _ => exact ⟨_, helse, h.changesOnly hstep (by rw [hjob]; trivial)⟩

/-- An exception behind the race leaves a chunk forgotten that nobody else
downloads, if the removal of the temporary file does not cause it. -/
theorem forgotten_abort {request : TransferRequest} (hjob : task.job = .downloadChunk request)
    (hremoves : RemovesTemp H request.chunkId sys (.resume id reply))
    (haborts : Aborts H request task'.history sys.shared sys'.shared)
    (hnow : ¬InProgress request.chunkId sys') :
    sys'.shared.transfer.activeTransfers.lookup request.chunkId = none := by
  rw [haborts.entry]
  obtain ⟨w, next, r, hrest, hgives, hcopy⟩ := h.copy_of_aborts hstep hjob haborts
  rcases hremoves id reply task request w next r rfl hstep.found hjob rfl hrest hgives hcopy with
    hremoved | hnone | ⟨other, t, hne, ht, hdownloading⟩
  · rw [haborts.refused] at hremoved
    cases hremoved
  · exact hnone
  · exact absurd ⟨t, List.mem_of_getElem? (hstep.getElem?_other hne ht), hdownloading⟩ hnow

/-- A call for the chunk that ends leaves it forgotten, unless it could not begin
or remove its file. -/
theorem forgotten_call {request : TransferRequest} (hjob : task.job = .downloadChunk request)
    (hidle : ¬InProgress request.chunkId sys → sys.shared.transfer.activeTransfers.lookup
      request.chunkId = none)
    (hbegins : task.Fresh → sys.shared.transfer.running = true →
      CanBegin request sys.shared ∨ InProgress request.chunkId sys)
    (hremoves : RemovesTemp H request.chunkId sys (.resume id reply))
    (hnow : ¬InProgress request.chunkId sys') :
    sys'.shared.transfer.activeTransfers.lookup request.chunkId = none := by
  have hbefore : task.Fresh → ¬InProgress request.chunkId sys := fun hfresh hprogress =>
    hnow (hprogress.resumes hstep fun hdownloading => hdownloading.begun hfresh)
  rcases h.call_step hstep hjob with ⟨rfl, hearly, -, hshared⟩ | ⟨c, hstops⟩
  · have hfresh : ((nodeProgram H fuel handler).newTask (.downloadChunk request)).Fresh := ⟨_, rfl⟩
    rw [hshared]
    cases hrunning : sys.shared.transfer.running with
    | false => exact hidle (hbefore hfresh)
    | true =>
        rcases hbegins hfresh hrunning with hcan | hprogress
        · exact absurd hcan (hearly.resolve_left (by simp [hrunning]))
        · exact absurd hprogress (hbefore hfresh)
  · rcases hstops with ⟨result, -, ⟨data, -, hconcludes⟩ | ⟨-, haborts⟩⟩ | ⟨hwaits, -, -⟩
    · exact hconcludes.forgotten
    · exact h.forgotten_abort hstep hjob hremoves haborts hnow
    · refine absurd ⟨task', List.mem_of_getElem? hstep.getElem?_self, ?_⟩ hnow
      exact ⟨⟨request, by rw [hstep.job, hjob], rfl⟩, hwaits.not_fresh, hwaits.unfinished⟩

omit hstep in
theorem can_begin {request : TransferRequest} (htask : sys.tasks[id]? = some task)
    (hfresh : task.Fresh) (hjob : task.job = .downloadChunk request)
    (reply : (e : External) → e.Answer) :
    ∃ sys', (nodeProgram H fuel handler).step sys (.resume id reply) = some sys' := by
  have hexpected := h.tasks task (List.mem_of_getElem? htask)
  obtain ⟨next, hrest⟩ := hfresh
  rw [hjob] at hexpected
  obtain rfl := hexpected.resolve_right fun hlater => by
    rcases hlater with hended | ⟨⟨w, next', hwaits⟩, -⟩
    · simp [Task.result?, hrest] at hended
    · rw [hrest] at hwaits
      cases hwaits
  have hkeeps : Keeps (.nobody H) ((nodeProgram H fuel handler).newTask (.downloadChunk request)) :=
    keeps_newCall request
  refine hkeeps.can_resume htask rfl (fun _ => clear_none _) ?_
  intro w next hawait
  cases hawait

/-- Nothing else can be needed: what a call has made that cannot begin stays. -/
theorem canBegin_of_forgotten {request : TransferRequest} (hfresh : task.Fresh)
    (hjob : task.job = .downloadChunk request) (hrunning : sys.shared.transfer.running = true)
    (hnext : ¬InProgress request.chunkId sys' →
      sys'.shared.transfer.activeTransfers.lookup request.chunkId = none) :
    CanBegin request sys.shared ∨ InProgress request.chunkId sys := by
  by_contra hneither
  rw [not_or] at hneither
  obtain ⟨hcannot, hidle⟩ := hneither
  have hexpected := h.tasks task (List.mem_of_getElem? hstep.found)
  rw [hjob] at hexpected
  obtain rfl := hexpected.resolve_right fun hlater => by
    rcases hlater with hended | ⟨hwaits, -⟩
    · exact hended hstep.unfinished
    · exact hwaits.not_fresh hfresh
  obtain ⟨hended, hshared⟩ := ends_of_early hstep (Or.inr hcannot)
  rw [if_pos hrunning] at hshared
  refine Option.some_ne_none _ ((lookup_beginDownload request sys.shared).symm.trans ?_)
  rw [← hshared]
  refine hnext ?_
  rintro ⟨t, ht, hdownloading⟩
  refine hstep.forall_tasks (Q := fun t => ¬IsDownloading request.chunkId t) ?_ ?_ ?_ t
    ht hdownloading
  · intro hself
    rw [hself.unfinished] at hended
    cases hended
  · exact fun t ht hold => hidle ⟨t, ht, hold⟩
  · intro job next hrest
    cases hrest

omit h hstep in
/-- In a step from a state in which an idle chunk is forgotten, beginning
properly is what keeps it so. -/
theorem beginsProperly_iff {action : Action nodeSignature}
    (h : Tracked H (nodeProgram H fuel handler) sys)
    (hremoves : RemovesTemp H chunkId sys action)
    (hidle : ¬InProgress chunkId sys → Forgotten chunkId sys.shared.transfer) :
    BeginsProperly chunkId sys action ↔
      ∀ sys', (nodeProgram H fuel handler).step sys action = some sys' →
        ¬InProgress chunkId sys' → Forgotten chunkId sys'.shared.transfer := by
  simp only [forgotten_iff] at hidle ⊢
  constructor
  · intro hbegins sys' hstep hnow
    rcases Program.step_cases hstep with ⟨job, rfl, rfl⟩ |
      ⟨id, reply, task, task', spawned, rfl, hresumes⟩
    · exact hidle fun hprogress => hnow (inProgress_start.mpr hprogress)
    by_cases hcall : ∃ request, task.job = .downloadChunk request ∧ request.chunkId = chunkId
    · obtain ⟨request, hjob, rfl⟩ := hcall
      exact h.forgotten_call hresumes hjob hidle (fun hfresh hrunning =>
        hbegins id reply task request rfl hresumes.found hfresh hjob rfl hrunning) hremoves hnow
    · have hnone := hidle fun hprogress =>
        hnow (hprogress.resumes hresumes fun hdownloading => hcall hdownloading.job)
      obtain ⟨concerned, hne, hchanges⟩ := h.changes_other hresumes hnone
        fun request hjob hchunk => hcall ⟨request, hjob, hchunk⟩
      rw [hchanges.active chunkId hne.symm, hnone]
  · rintro hkept id reply task request rfl htask hfresh hjob rfl hrunning
    obtain ⟨sys', hstep⟩ := h.can_begin htask hfresh hjob reply
    obtain ⟨t, task', spawned, hresumes⟩ := Program.resumes_of_step hstep
    have hsame : t = task := by
      rw [← Option.some.injEq, ← hresumes.found, htask]
    subst hsame
    exact h.canBegin_of_forgotten hresumes hfresh hjob hrunning (hkept sys' hstep)

end Tracked

/-- In every run of calls and cancellations from an empty table in which calls
can remove their temporary files, a chunk that nobody downloads is forgotten in
every state reached exactly if no call for it has begun alone and without a
buffer or peers. -/
theorem idle_forgotten_iff {s : Node} {actions : List (Action nodeSignature)}
    (hempty : s.transfer.activeTransfers = ∅)
    (honly : ∀ action ∈ actions, OnlyTransfers action)
    (hremoves : EveryStep (nodeProgram H fuel handler).step (RemovesTemp H chunkId) (.initial s)
      actions) :
    EveryStep (nodeProgram H fuel handler).step (BeginsProperly chunkId) (.initial s) actions ↔
      ∀ front sys, front <+: actions →
        runSteps (nodeProgram H fuel handler).step (.initial s) front = some sys →
          ¬InProgress chunkId sys → Forgotten chunkId sys.shared.transfer := by
  refine everyStep_iff_forall_reached_of (J := Tracked H (nodeProgram H fuel handler))
    (Q := fun sys action => OnlyTransfers action ∧ RemovesTemp H chunkId sys action)
    (fun sys action sys' h hjob hstep => h.step hjob.1 hstep)
    (fun sys action h hidle hgiven => h.beginsProperly_iff hgiven.2 hidle)
    (Tracked.initial (owned_of_empty hempty)) ?_ ((EveryStep.of_forall honly).and hremoves)
  intro _
  rw [forgotten_iff]
  change s.transfer.activeTransfers.lookup chunkId = none
  rw [hempty]
  rfl

end Runs

/-! ## A call without peers -/

def sampleOrphan : TransferRequest := { chunkId := ascii "c" }

def orphanRun : List (Action nodeSignature) :=
  [.start (.downloadChunk sampleOrphan), reads 0 [], .start (.cancelTransfer (ascii "c")),
    reads 1 []]

def onlySampleCalls (sys : System nodeSignature) : Bool :=
  throwsNothing sampleDownload sys && sys.tasks.all fun task =>
    match task.job with
    | .downloadChunk request => decide (request = sampleDownload)
    | _ => true

theorem onlySampleCalls_sound {H : Sha256} {sys : System nodeSignature}
    {action : Action nodeSignature} (h : onlySampleCalls sys = true) :
    RemovesTemp H (ascii "c") sys action ∧ BeginsProperly (ascii "c") sys action := by
  simp only [onlySampleCalls, throwsNothing, Bool.and_eq_true, List.all_eq_true] at h
  obtain ⟨⟨hreserves, hremoves⟩, hcalls⟩ := h
  refine ⟨fun _ _ _ _ _ _ _ _ _ _ _ _ _ _ => Or.inl hremoves, ?_⟩
  intro id reply task request _ htask _ hjob _ _
  have hsample := hcalls task (List.mem_of_getElem? htask)
  rw [hjob, decide_eq_true_eq] at hsample
  subst hsample
  exact Or.inl ⟨hreserves, List.cons_ne_nil _ _⟩

theorem idle_forgotten_iff_sampleRace :
    EveryStep (nodeProgram Cache.ChunkManager.sampleSha256 0 {}).step
      (fun sys action => RemovesTemp Cache.ChunkManager.sampleSha256 (ascii "c") sys action ∧
        BeginsProperly (ascii "c") sys action) (.initial sampleNode) sampleRace ∧
    ∀ front sys, front <+: sampleRace →
      runSteps (nodeProgram Cache.ChunkManager.sampleSha256 0 {}).step (.initial sampleNode)
        front = some sys →
          ¬InProgress (ascii "c") sys → Forgotten (ascii "c") sys.shared.transfer := by
  have hcalls : EveryStep (nodeProgram Cache.ChunkManager.sampleSha256 0 {}).step
      (fun sys _ => onlySampleCalls sys = true) (.initial sampleNode) sampleRace := by
    decide +kernel
  have honly : ∀ action ∈ sampleRace, OnlyTransfers action := by
    simp [sampleRace, reads, OnlyTransfers, IsTransferJob]
  have hproper : EveryStep (nodeProgram Cache.ChunkManager.sampleSha256 0 {}).step
      (fun sys action => RemovesTemp Cache.ChunkManager.sampleSha256 (ascii "c") sys action ∧
        BeginsProperly (ascii "c") sys action) (.initial sampleNode) sampleRace :=
    hcalls.mono fun _ _ => onlySampleCalls_sound
  exact ⟨hproper, (idle_forgotten_iff rfl honly (hproper.mono fun _ _ => And.left)).mp
    (hproper.mono fun _ _ => And.right)⟩

/-- Nothing is in progress, but the entry is there, the cancellation has raised
its stop flag, and the next call finds it up. -/
theorem not_forgotten_orphanRun :
    ∃ sys, runSteps (nodeProgram Cache.ChunkManager.sampleSha256 0 {}).step (.initial sampleNode)
        orphanRun = some sys ∧ ¬InProgress (ascii "c") sys ∧
      sys.shared.transfer.activeTransfers.lookup (ascii "c") ≠ none ∧
      sys.shared.transfer.activeTransferCount = 1 ∧
      (openContext sampleDownload sys.shared.transfer).2.isStopped
        (openContext sampleDownload sys.shared.transfer).1 = true := by
  have hrun : ((runSteps (nodeProgram Cache.ChunkManager.sampleSha256 0 {}).step
      (.initial sampleNode) orphanRun).any fun sys =>
        sys.tasks.all (fun task => task.result?.isSome) &&
          (sys.shared.transfer.activeTransfers.lookup (ascii "c")).isSome &&
            decide (sys.shared.transfer.activeTransferCount = 1) &&
              (openContext sampleDownload sys.shared.transfer).2.isStopped
                (openContext sampleDownload sys.shared.transfer).1) = true := by
    decide +kernel
  obtain ⟨sys, hsys, hfinal⟩ := (Option.any_eq_true _ _).mp hrun
  simp only [Bool.and_eq_true, List.all_eq_true, decide_eq_true_eq] at hfinal
  obtain ⟨⟨⟨hended, hentry⟩, hcount⟩, hstopped⟩ := hfinal
  refine ⟨sys, hsys, ?_, ?_, hcount, hstopped⟩
  · rintro ⟨task, htask, hdownloading⟩
    have hresult := hended task htask
    rw [hdownloading.unfinished] at hresult
    cases hresult
  · intro hnone
    rw [hnone] at hentry
    cases hentry

end ElioP2P.P2P
