import ElioP2P.P2P.Proofs.IdleTransfers

/-!
# Saved progress behind a download that has succeeded

At the end of a call that returns data `download_chunk` saves the size of its
context once more and removes the temporary file.  The progress file and the
entry in memory stay, so the next call resumes unless that size is zero.
-/

namespace ElioP2P.P2P

open ElioP2P.Library ElioP2P.Library.Coroutine ElioP2P.Proxy

/-- There is no saved progress of the chunk, and the next call for it does not
start as a resume from somewhere behind the beginning. -/
structure NoProgress (chunkId : Bytes) (t : TransferManager) : Prop where
  saved : t.hasProgress chunkId = false
  next : ∀ (request : TransferRequest) (context : ChunkTransferContext),
    request.chunkId = chunkId →
      (openContext request t).2.contexts[(openContext request t).1]? = some context →
        ¬(context.isResume = true ∧ 0 < context.downloadedSize)

def SentNothing (H : Sha256) (expectedSha256 : Bytes) (exchanges : List NetExchange) : Prop :=
  ∃ peer, Delivered H peer expectedSha256 exchanges []

/-- The last section of a call, which it starts with the history `before` in the
state `found`, either adopts a copy without data, or it finds a copy adopted
earlier and size zero in the context of that copy. -/
def SavesNothing (H : Sha256) (expectedSha256 : Bytes) (found : TransferManager)
    (before after : List (Event nodeSignature)) : Prop :=
  match adopted before with
  | none => SentNothing H expectedSha256 (adoptedExchanges after)
  | some copy => downloadedSize found copy.ctx = some 0

def SparesChunk (chunkId : Bytes) (sys : System nodeSignature) (action : Action nodeSignature) :
    Prop :=
  ∀ id reply task request, action = .resume id reply → sys.tasks[id]? = some task →
    task.job = .downloadChunk request → request.chunkId ≠ chunkId

def RunsAlone (call : Nat) (chunkId : Bytes) (sys : System nodeSignature)
    (action : Action nodeSignature) : Prop :=
  ∀ id reply task request own, action = .resume id reply → id ≠ call →
    sys.tasks[id]? = some task → task.job = .downloadChunk request → request.chunkId = chunkId →
      sys.tasks[call]? = some own → own.Fresh ∨ own.result? ≠ none

/-! ## What the next call finds -/

theorem hasProgress_eq_false_iff {t : TransferManager} {chunkId : Bytes} :
    t.hasProgress chunkId = false ↔ (t.loadProgress chunkId).getD 0 = 0 := by
  unfold TransferManager.hasProgress
  cases t.loadProgress chunkId with
  | none => simp
  | some n => simp

/-- A new context starts at the saved progress. -/
theorem downloadedSize_openContext {request : TransferRequest} {t : TransferManager}
    (hnone : t.activeTransfers.lookup request.chunkId = none)
    (hsaved : t.hasProgress request.chunkId = false) :
    downloadedSize (openContext request t).2 (openContext request t).1 = some 0 := by
  rw [hasProgress_eq_false_iff] at hsaved
  have hload : ∀ t' : TransferManager, t'.loadProgress request.chunkId =
      t.loadProgress request.chunkId → (if request.enableResume then
        (t'.loadProgress request.chunkId).getD 0 else 0) = 0 := by
    intro t' hsame
    rw [hsame, hsaved, ite_self]
  simp only [openContext, TransferManager.getOrCreateContext, hnone]
  rw [hload, if_neg (Nat.lt_irrefl 0)]
  · simp [downloadedSize, TransferManager.updateContext]
  · rfl

theorem noProgress_iff {t : TransferManager} {chunkId : Bytes}
    (hnone : t.activeTransfers.lookup chunkId = none) :
    NoProgress chunkId t ↔ t.hasProgress chunkId = false := by
  refine ⟨NoProgress.saved, fun hsaved => ⟨hsaved, ?_⟩⟩
  rintro request context rfl hcontext ⟨-, hpositive⟩
  have hzero := downloadedSize_openContext hnone hsaved
  rw [downloadedSize, hcontext, Option.map_some, Option.some.injEq] at hzero
  omega

/-! ## One response, one payload -/

theorem CompleteResponse.unique {H : Sha256} {bytes data data' : Bytes}
    (h : CompleteResponse H bytes data) (h' : CompleteResponse H bytes data') : data = data' := by
  obtain ⟨header, id, rfl, -, -, hid, -⟩ := h
  obtain ⟨header', id', heq, -, -, hid', -⟩ := h'
  rw [List.append_assoc, List.append_assoc] at heq
  obtain ⟨hheader, hrest⟩ := List.append_inj heq (by rw [length_headerBytes, length_headerBytes])
  cases headerBytes_injective hheader
  exact (List.append_inj hrest (by rw [hid, hid'])).2

theorem after_last_unique {α : Type} {p : α → Bool} {x x' : α}
    {before before' after after' : List α}
    (heq : before ++ x :: after = before' ++ x' :: after') (hx : p x = true) (hx' : p x' = true)
    (hafter : ∀ y ∈ after, p y = false) (hafter' : ∀ y ∈ after', p y = false) :
    after = after' := by
  have htake : ∀ {x : α} {before after : List α}, p x = true → (∀ y ∈ after, p y = false) →
      (before ++ x :: after).reverse.takeWhile (fun y => !p y) = after.reverse := by
    intro x before after hx hafter
    rw [List.reverse_append, List.reverse_cons, List.append_assoc,
      List.takeWhile_append_of_pos fun y hy => by simp [hafter y (List.mem_reverse.mp hy)]]
    simp [hx]
  rw [← List.reverse_inj, ← htake hx hafter, heq, htake hx' hafter']

theorem Delivered.unique {H : Sha256} {peer peer' : PeerNode}
    {expectedSha256 expectedSha256' data data' : Bytes} {exchanges : List NetExchange}
    (h : Delivered H peer expectedSha256 exchanges data)
    (h' : Delivered H peer' expectedSha256' exchanges data') : data = data' := by
  obtain ⟨-, before, after, rfl, hquiet, hcomplete⟩ := h
  obtain ⟨-, before', after', heq, hquiet', hcomplete'⟩ := h'
  rw [after_last_unique heq rfl rfl hquiet hquiet'] at hcomplete
  exact hcomplete.unique hcomplete'

theorem sentNothing_iff {H : Sha256} {expectedSha256 data : Bytes} {exchanges : List NetExchange}
    (h : ∃ peer, Delivered H peer expectedSha256 exchanges data) :
    SentNothing H expectedSha256 exchanges ↔ data.length = 0 := by
  rw [List.length_eq_zero_iff]
  refine ⟨fun ⟨peer', hnothing⟩ => ?_, fun hdata => ?_⟩
  · obtain ⟨peer, hdelivered⟩ := h
    exact hdelivered.unique hnothing
  · subst hdata
    exact h

section Runs

variable {H : Sha256} {fuel : Nat} {handler : RequestHandler} {chunkId : Bytes} {call : Nat}
  {sys sys' last : System nodeSignature} {reply : (e : External) → e.Answer} {id : Nat}
  {task task' : Task nodeSignature} {spawned : List (Task nodeSignature)}
  {request : TransferRequest}

/-! ## Behind the call -/

structure Resting (H : Sha256) (P : Program nodeSignature) (chunkId : Bytes) (saved : Option Nat)
    (sys : System nodeSignature) : Prop where
  tracked : Tracked H P sys
  forgotten : sys.shared.transfer.activeTransfers.lookup chunkId = none
  saved : sys.shared.transfer.loadProgress chunkId = saved

theorem Resting.step {saved : Option Nat} {action : Action nodeSignature}
    (h : Resting H (nodeProgram H fuel handler) chunkId saved sys) (honly : OnlyTransfers action)
    (hspares : SparesChunk chunkId sys action)
    (hstep : (nodeProgram H fuel handler).step sys action = some sys') :
    Resting H (nodeProgram H fuel handler) chunkId saved sys' := by
  have htracked := h.tracked.step honly hstep
  rcases Program.step_cases hstep with ⟨job, rfl, rfl⟩ |
    ⟨id, reply, task, task', spawned, rfl, hresumes⟩
  · exact ⟨htracked, h.forgotten, h.saved⟩
  · obtain ⟨concerned, hne, hchanges⟩ := h.tracked.changes_other hresumes h.forgotten
      fun request hjob => hspares id reply task request rfl hresumes.found hjob
    refine ⟨htracked, ?_, ?_⟩
    · rw [hchanges.active chunkId hne.symm, h.forgotten]
    · rw [hchanges.progress chunkId hne.symm, h.saved]

/-! ## A call that nobody interferes with -/

theorem downloadedSize_of_owns {t t' : TransferManager} {other : Bytes} {c : Nat}
    (h : ChangesOnly other t t') (howns : Owns t chunkId c) (hne : other ≠ chunkId) :
    downloadedSize t' c = downloadedSize t c := by
  rw [downloadedSize, downloadedSize, h.context_kept howns hne]

theorem downloadedSize_updateContext {t : TransferManager} {c ctx : Nat}
    {f : ChunkTransferContext → ChunkTransferContext}
    (hf : ∀ x, (f x).downloadedSize = x.downloadedSize) :
    downloadedSize (t.updateContext ctx f) c = downloadedSize t c := by
  unfold downloadedSize TransferManager.updateContext
  rw [List.getElem?_modify]
  cases t.contexts[c]? with
  | none => rfl
  | some context =>
      by_cases hctx : ctx = c
      · simp [hctx, hf]
      · simp [hctx]

theorem downloadedSize_cancelTransfer (t : TransferManager) (cancelled : Bytes) (c : Nat) :
    downloadedSize (t.cancelTransfer cancelled) c = downloadedSize t c := by
  have hsaved : ∀ (t : TransferManager) n,
      downloadedSize (t.saveProgress cancelled n) c = downloadedSize t c := by
    intro t n
    simp only [TransferManager.saveProgress]
    split
    · rfl
    · rfl
  unfold TransferManager.cancelTransfer
  split
  · rfl
  · rw [hsaved]
    exact downloadedSize_updateContext fun _ => rfl

/-- The call is still to begin, or has ended, or waits; then the size in its
context is that of the copy which it has adopted. -/
def LoneCall (H : Sha256) (P : Program nodeSignature) (call : Nat) (chunkId : Bytes)
    (sys : System nodeSignature) : Prop :=
  ∀ own request, sys.tasks[call]? = some own → own.job = .downloadChunk request →
    request.chunkId = chunkId → own = P.newTask (.downloadChunk request) ∨ own.result? ≠ none ∨
      Waits own ∧ ∃ c, Owns sys.shared.transfer chunkId c ∧ CallRuns H request True c own ∧
        SizeAgrees c own.history sys.shared.transfer

theorem LoneCall.own_step (h : LoneCall H (nodeProgram H fuel handler) call request.chunkId sys)
    (htracked : Tracked H (nodeProgram H fuel handler) sys)
    (hstep : (nodeProgram H fuel handler).Resumes reply sys sys' call task task' spawned)
    (hjob : task.job = .downloadChunk request) :
    task'.result? = some (earlyEnd request sys.shared) ∨
      ∃ c, CallStops H request True c task' sys.shared sys'.shared := by
  rcases h task request hstep.found hjob rfl with rfl | hended | ⟨hwaits, c, howns, hruns, hagrees⟩
  · by_cases hearly : sys.shared.transfer.running = false ∨ ¬CanBegin request sys.shared
    · exact Or.inl (ends_of_early hstep hearly).1
    · rw [not_or, Bool.not_eq_false, not_not] at hearly
      exact Or.inr ⟨_, callStops_of_begin hstep htracked.owned hearly.1 hearly.2⟩
  · exact absurd hstep.unfinished hended
  · exact Or.inr ⟨c, hruns.resumes hstep hwaits htracked.owned howns (fun _ => hagrees)
      fun w next r hrest hgives => htracked.call_told hruns hrest hgives⟩

/-- Whoever else goes on leaves the size in the context alone. -/
theorem downloadedSize_other (htracked : Tracked H (nodeProgram H fuel handler) sys)
    (hstep : (nodeProgram H fuel handler).Resumes reply sys sys' id task task' spawned)
    (hother : ∀ request, task.job = .downloadChunk request → request.chunkId ≠ chunkId) {c : Nat}
    (howns : Owns sys.shared.transfer chunkId c) :
    downloadedSize sys'.shared.transfer c = downloadedSize sys.shared.transfer c := by
  cases hjob : task.job with
  | downloadChunk request =>
      exact downloadedSize_of_owns (htracked.changesOnly hstep (by rw [hjob]; rfl)) howns
        (hother request hjob)
  | cancelTransfer cancelled =>
      rw [(htracked.cancel_step hstep hjob).2]
      exact downloadedSize_cancelTransfer _ _ _
  | _ =>
      have hconcerns : Concerns task.job (chunkId ++ [0]) := by
        rw [hjob]
        trivial
      exact downloadedSize_of_owns (htracked.changesOnly hstep hconcerns) howns (by simp)

theorem LoneCall.step {action : Action nodeSignature}
    (h : LoneCall H (nodeProgram H fuel handler) call chunkId sys)
    (htracked : Tracked H (nodeProgram H fuel handler) sys)
    (halone : RunsAlone call chunkId sys action)
    (hstep : (nodeProgram H fuel handler).step sys action = some sys') :
    LoneCall H (nodeProgram H fuel handler) call chunkId sys' := by
  intro own request hown hjob hchunk
  rcases Program.step_cases hstep with ⟨job, rfl, rfl⟩ |
    ⟨id, reply, task, task', spawned, rfl, hresumes⟩
  · rcases Nat.lt_or_ge call sys.tasks.length with hlt | hge
    · rw [List.getElem?_append_left hlt] at hown
      exact h own request hown hjob hchunk
    · rw [List.getElem?_append_right hge] at hown
      have hnew := List.mem_singleton.mp (List.mem_of_getElem? hown)
      subst hnew
      cases hjob
      exact Or.inl rfl
  rcases hresumes.task_cases hown with ⟨rfl, rfl⟩ | ⟨hne, hold⟩ | ⟨-, job, next, -, rfl⟩
  · rw [hresumes.job] at hjob
    subst hchunk
    rcases h.own_step htracked hresumes hjob with hnothing | ⟨c, ⟨result, hended, -⟩ | hgoes⟩
    · exact Or.inr (Or.inl (by simp [hnothing]))
    · exact Or.inr (Or.inl (by simp [hended]))
    · obtain ⟨hwaits, hruns, -, -, howns, hagrees, -⟩ := hgoes
      exact Or.inr (Or.inr ⟨hwaits, c, howns, hruns, hagrees trivial⟩)
  · refine (h own request hold hjob hchunk).imp_right fun hlater => hlater.imp_right ?_
    rintro ⟨hwaits, c, howns, hruns, hagrees⟩
    have hother : ∀ request', task.job = .downloadChunk request' → request'.chunkId ≠ chunkId := by
      intro request' hjob' hsame
      rcases halone id reply task request' own rfl hne.symm hresumes.found hjob' hsame hold with
        hfresh | hended
      · exact hwaits.not_fresh hfresh
      · exact hended hwaits.unfinished
    obtain ⟨concerned, hconcerns⟩ := exists_concerns task.job
    refine ⟨hwaits, c, (htracked.changesOnly hresumes hconcerns).owns _ _ howns, hruns, ?_⟩
    intro copy hcopy
    rw [downloadedSize_other htracked hresumes hother howns]
    exact hagrees copy hcopy
  · cases hjob
    exact Or.inl rfl

/-! ## The end of a call -/

theorem CallEnds.concludes {alone : Prop} {h : List (Event nodeSignature)} {data : Bytes}
    {found s : Node} (hends : CallEnds H request alone h (.chunk (some data)) found s) :
    Concludes H request alone h (some data) found s := by
  rcases hends with ⟨data', hdata, hconcludes⟩ | ⟨hthrown, -⟩
  · cases hdata
    exact hconcludes
  · cases hthrown

theorem Tracked.concludes (h : Tracked H (nodeProgram H fuel handler) sys)
    (hstep : (nodeProgram H fuel handler).Resumes reply sys sys' id task task' spawned)
    (hjob : task.job = .downloadChunk request) {data : Bytes}
    (hresult : task'.result? = some (.chunk (some data))) :
    Concludes H request False task'.history (some data) sys.shared sys'.shared := by
  rcases h.call_step hstep hjob with ⟨-, -, hended, -⟩ | ⟨c, ⟨result, hended, hends⟩ | hgoes⟩
  · rw [hended, Option.some.injEq] at hresult
    exact absurd hresult (earlyEnd_ne_data _ _ _)
  · rw [hended] at hresult
    cases hresult
    exact hends.concludes
  · rw [hgoes.1.unfinished] at hresult
    cases hresult

theorem dropLast_history {P : Program nodeSignature}
    (hstep : P.Resumes reply sys sys' id task task' spawned)
    (hbegun : (∃ w next, task.rest = .await w next) ∨ task.history = []) :
    task'.history.dropLast = task.history := by
  rcases hstep.wakes with ⟨w, next, r, -, -, hhistory, -⟩ | ⟨hawait, -, hhistory, -⟩
  · rw [hhistory, List.dropLast_concat]
  · rcases hbegun with ⟨w, next, hrest⟩ | hempty
    · exact absurd hrest (hawait w next)
    · rw [hhistory, hempty]
      rfl

theorem Tracked.dropLast_history (h : Tracked H (nodeProgram H fuel handler) sys)
    (hstep : (nodeProgram H fuel handler).Resumes reply sys sys' id task task' spawned)
    (hjob : task.job = .downloadChunk request) : task'.history.dropLast = task.history := by
  refine P2P.dropLast_history hstep ?_
  have hexpected := h.tasks task (List.mem_of_getElem? hstep.found)
  rw [hjob] at hexpected
  rcases hexpected with rfl | hended | ⟨hwaits, -⟩
  · exact Or.inr rfl
  · exact absurd hstep.unfinished hended
  · exact Or.inl hwaits

theorem savesNothing_iff {data : Bytes} {n : Nat} {found : TransferManager}
    {before after : List (Event nodeSignature)} {expectedSha256 : Bytes}
    (hdelivered : ∃ peer, Delivered H peer expectedSha256 (adoptedExchanges after) data)
    (hn : match adopted before with
      | none => n = data.length
      | some copy => downloadedSize found copy.ctx = some n) :
    SavesNothing H expectedSha256 found before after ↔ n = 0 := by
  unfold SavesNothing
  cases hcopy : adopted before with
  | none =>
      rw [hcopy] at hn
      rw [show n = data.length from hn]
      exact sentNothing_iff hdelivered
  | some copy =>
      rw [hcopy] at hn
      simp only [show downloadedSize found copy.ctx = some n from hn, Option.some.injEq]

theorem loadProgress_of_saved {t : TransferManager} {n : Nat}
    (hsaved : t.savedProgress.lookup chunkId = some n) : t.loadProgress chunkId = some n := by
  rw [TransferManager.loadProgress, hsaved]

theorem Tracked.faultless {action : Action nodeSignature}
    (h : Tracked H (nodeProgram H fuel handler) sys)
    (hstep : (nodeProgram H fuel handler).step sys action = some sys')
    (hfaultless : sys.shared.transfer.progressFiles.Faultless) :
    sys'.shared.transfer.progressFiles.Faultless := by
  rcases Program.step_cases hstep with ⟨job, rfl, rfl⟩ |
    ⟨id, reply, task, task', spawned, rfl, hresumes⟩
  · exact hfaultless
  · obtain ⟨chunkId, hconcerns⟩ := exists_concerns task.job
    intro n
    rw [(h.changesOnly hresumes hconcerns).outcome]
    exact hfaultless n

/-- In the step in which a task ends it is the one that goes on. -/
theorem resumes_of_ends {P : Program nodeSignature} {action : Action nodeSignature}
    {result : JobResult} (hstep : P.step sys action = some sys')
    (htask : sys.tasks[id]? = some task)
    (htask' : sys'.tasks[id]? = some task') (hbefore : task.result? = none)
    (hafter : task'.result? = some result) :
    ∃ reply spawned, P.Resumes reply sys sys' id task task' spawned := by
  have hchanged : task' ≠ task := by
    rintro rfl
    rw [hbefore] at hafter
    cases hafter
  rcases Program.step_cases hstep with ⟨job, rfl, rfl⟩ |
    ⟨other, reply, own, own', spawned, rfl, hresumes⟩
  · rw [List.getElem?_append_left (List.getElem?_eq_some_iff.mp htask).1, htask] at htask'
    exact absurd (Option.some.inj htask').symm hchanged
  by_cases hid : id = other
  · subst hid
    rw [hresumes.found] at htask
    rw [hresumes.getElem?_self] at htask'
    cases htask
    cases htask'
    exact ⟨reply, spawned, hresumes⟩
  · rw [hresumes.getElem?_other hid htask] at htask'
    exact absurd (Option.some.inj htask').symm hchanged

theorem LoneCall.saved_length {data : Bytes}
    (h : LoneCall H (nodeProgram H fuel handler) call request.chunkId sys)
    (htracked : Tracked H (nodeProgram H fuel handler) sys)
    (hstep : (nodeProgram H fuel handler).Resumes reply sys sys' call task task' spawned)
    (hjob : task.job = .downloadChunk request)
    (hresult : task'.result? = some (.chunk (some data)))
    (hfaultless : sys'.shared.transfer.progressFiles.Faultless) :
    sys'.shared.transfer.savedProgress.lookup request.chunkId = some data.length := by
  rcases h.own_step htracked hstep hjob with hnothing | ⟨c, ⟨result, hended, hends⟩ | hgoes⟩
  · rw [hnothing, Option.some.injEq] at hresult
    exact absurd hresult (earlyEnd_ne_data _ _ _)
  · rw [hended] at hresult
    cases hresult
    obtain ⟨n, hsaved, hlength, -⟩ := hends.concludes.saved hfaultless data rfl
    rw [hsaved, hlength trivial]
  · rw [hgoes.1.unfinished] at hresult
    cases hresult

/-- In every run, when a call has returned data and until another call for its
chunk goes on, the chunk has no progress exactly if the call has saved zero.
For a call that nobody interferes with this is the case exactly if the peer whose
copy it has adopted has sent nothing. -/
theorem noProgress_iff_savesNothing {s : Node} {front back : List (Action nodeSignature)}
    {action : Action nodeSignature} {data : Bytes} (howned : Owned s.transfer)
    (hfaultless : s.transfer.progressFiles.Faultless)
    (honly : ∀ action' ∈ front ++ action :: back, OnlyTransfers action')
    (hfront : runSteps (nodeProgram H fuel handler).step (.initial s) front = some sys)
    (hstep : (nodeProgram H fuel handler).step sys action = some sys')
    (hback : runSteps (nodeProgram H fuel handler).step sys' back = some last)
    (htask : sys.tasks[call]? = some task) (hjob : task.job = .downloadChunk request)
    (hbefore : task.result? = none) (htask' : sys'.tasks[call]? = some task')
    (hafter : task'.result? = some (.chunk (some data)))
    (hspares : EveryStep (nodeProgram H fuel handler).step (SparesChunk request.chunkId) sys'
      back) :
    (NoProgress request.chunkId last.shared.transfer ↔
      SavesNothing H request.expectedSha256 sys.shared.transfer task.history task'.history) ∧
    (EveryStep (nodeProgram H fuel handler).step (RunsAlone call request.chunkId) (.initial s)
        front →
      (NoProgress request.chunkId last.shared.transfer ↔
        SentNothing H request.expectedSha256 (adoptedExchanges task'.history))) := by
  have honlyFront : EveryStep (nodeProgram H fuel handler).step
      (fun _ action => OnlyTransfers action) (.initial s) front :=
    EveryStep.of_forall fun action' hmem => honly action' (by simp [hmem])
  have honlyBack : EveryStep (nodeProgram H fuel handler).step
      (fun _ action => OnlyTransfers action) sys' back :=
    EveryStep.of_forall fun action' hmem => honly action' (by simp [hmem])
  obtain ⟨htracked, hfiles⟩ := runSteps_invariant
    (I := fun sys => Tracked H (nodeProgram H fuel handler) sys ∧
      sys.shared.transfer.progressFiles.Faultless)
    (fun sys action sys' h hjob hstep => ⟨h.1.step hjob hstep, h.1.faultless hstep h.2⟩)
    ⟨Tracked.initial howned, hfaultless⟩ honlyFront hfront
  obtain ⟨reply, spawned, hresumes⟩ := resumes_of_ends hstep htask htask' hbefore hafter
  have hconcludes := htracked.concludes hresumes hjob hafter
  obtain ⟨n, hsaved, -, hn⟩ := hconcludes.saved (htracked.faultless hstep hfiles) data rfl
  rw [htracked.dropLast_history hresumes hjob] at hn
  have hresting : Resting H (nodeProgram H fuel handler) request.chunkId (some n) last :=
    runSteps_invariant (fun sys action sys' h hallowed hstep => h.step hallowed.1 hallowed.2 hstep)
      ⟨htracked.step (honly action (by simp)) hstep, hconcludes.forgotten,
        loadProgress_of_saved hsaved⟩ (honlyBack.and hspares) hback
  have hiff : NoProgress request.chunkId last.shared.transfer ↔ n = 0 := by
    rw [noProgress_iff hresting.forgotten, hasProgress_eq_false_iff, hresting.saved,
      Option.getD_some]
  have hdelivered := hconcludes.delivered data rfl
  refine ⟨hiff.trans (savesNothing_iff hdelivered hn).symm, fun halone => ?_⟩
  have hlone := (runSteps_invariant (I := fun sys => Tracked H (nodeProgram H fuel handler) sys ∧
      LoneCall H (nodeProgram H fuel handler) call request.chunkId sys)
    (fun sys action sys' h hallowed hstep =>
      ⟨h.1.step hallowed.1 hstep, h.2.step h.1 hallowed.2 hstep⟩)
    ⟨Tracked.initial howned, fun own _ hown => nomatch hown⟩ (honlyFront.and halone) hfront).2
  have hlength := hlone.saved_length htracked hresumes hjob hafter
    (htracked.faultless hstep hfiles)
  rw [hsaved, Option.some.injEq] at hlength
  rw [hiff, hlength]
  exact (sentNothing_iff hdelivered).symm

end Runs

/-! ## A download that succeeds -/

theorem noProgress_iff_savesNothing_sampleRace :
    ∃ sys sys' task task', runSteps (nodeProgram Cache.ChunkManager.sampleSha256 0 {}).step
        (.initial sampleNode) sampleRace.dropLast = some sys ∧
      (nodeProgram Cache.ChunkManager.sampleSha256 0 {}).step sys (reads 0 []) = some sys' ∧
      sys.tasks[0]? = some task ∧ sys'.tasks[0]? = some task' ∧
      task'.result? = some (.chunk (some [1])) ∧
      (NoProgress sampleDownload.chunkId sys'.shared.transfer ↔
        SavesNothing Cache.ChunkManager.sampleSha256 sampleDownload.expectedSha256
          sys.shared.transfer task.history task'.history) := by
  have hrun : ((runSteps (nodeProgram Cache.ChunkManager.sampleSha256 0 {}).step
      (.initial sampleNode) sampleRace.dropLast).any fun sys =>
        ((nodeProgram Cache.ChunkManager.sampleSha256 0 {}).step sys (reads 0 [])).any fun sys' =>
          sys.tasks[0]?.any fun task => sys'.tasks[0]?.any fun task' =>
            decide (task.job = .downloadChunk sampleDownload) && task.result?.isNone &&
              decide (returnedChunk task' = some [1])) = true := by
    decide +kernel
  obtain ⟨sys, hfront, hrun⟩ := (Option.any_eq_true _ _).mp hrun
  obtain ⟨sys', hstep, hrun⟩ := (Option.any_eq_true _ _).mp hrun
  obtain ⟨task, htask, hrun⟩ := (Option.any_eq_true _ _).mp hrun
  obtain ⟨task', htask', hrun⟩ := (Option.any_eq_true _ _).mp hrun
  simp only [Bool.and_eq_true, decide_eq_true_eq, Option.isNone_iff_eq_none] at hrun
  obtain ⟨⟨hjob, hbefore⟩, hreturned⟩ := hrun
  have hafter := result_of_returnedChunk hreturned
  refine ⟨sys, sys', task, task', hfront, hstep, htask, htask', hafter, ?_⟩
  have honly : ∀ action ∈ sampleRace.dropLast ++ [reads 0 []], OnlyTransfers action := by
    simp [sampleRace, reads, OnlyTransfers, IsTransferJob]
  exact (noProgress_iff_savesNothing (owned_of_empty rfl) FileSystem.faultless_empty honly hfront
    hstep rfl htask hjob hbefore htask' hafter trivial).1

/-- The call has returned one byte, and a following call resumes behind it. -/
theorem not_noProgress_sampleRace :
    sampleNode.transfer.progressFiles.Faultless ∧
    ∃ sys, runSteps (nodeProgram Cache.ChunkManager.sampleSha256 0 {}).step (.initial sampleNode)
        sampleRace = some sys ∧
      (∃ task ∈ sys.tasks, task.job = .downloadChunk sampleDownload ∧
        task.result? = some (.chunk (some [1]))) ∧
      sys.shared.transfer.hasProgress sampleDownload.chunkId = true ∧
      ¬NoProgress sampleDownload.chunkId sys.shared.transfer ∧
      ∃ context, (openContext sampleDownload sys.shared.transfer).2.contexts[
          (openContext sampleDownload sys.shared.transfer).1]? = some context ∧
        context.isResume = true ∧ context.downloadedSize = 1 := by
  have hrun : ((runSteps (nodeProgram Cache.ChunkManager.sampleSha256 0 {}).step
      (.initial sampleNode) sampleRace).any fun sys =>
        (sys.tasks.any fun task => decide (task.job = .downloadChunk sampleDownload) &&
          decide (returnedChunk task = some [1])) &&
        sys.shared.transfer.hasProgress sampleDownload.chunkId &&
        (openContext sampleDownload sys.shared.transfer).2.contexts[
          (openContext sampleDownload sys.shared.transfer).1]?.any fun context =>
            context.isResume && decide (context.downloadedSize = 1)) = true := by
    decide +kernel
  obtain ⟨sys, hsys, hfinal⟩ := (Option.any_eq_true _ _).mp hrun
  simp only [Bool.and_eq_true, List.any_eq_true, Option.any_eq_true, decide_eq_true_eq] at hfinal
  obtain ⟨⟨⟨task, htask, hjob, hreturned⟩, hprogress⟩, hcontext⟩ := hfinal
  refine ⟨FileSystem.faultless_empty, sys, hsys,
    ⟨task, htask, hjob, result_of_returnedChunk hreturned⟩, hprogress, fun hnothing => ?_, hcontext⟩
  rw [hnothing.saved] at hprogress
  cases hprogress

end ElioP2P.P2P
