import ElioP2P.P2P.Proofs.Sections
import ElioP2P.P2P.Transfer

/-!
# What concerns one chunk

A call of `download_chunk` and `cancel_transfer` change the entry, the context
and the saved progress of their chunk only, as long as the entry of a chunk
leads to a context of that chunk.
-/

namespace ElioP2P.P2P

open ElioP2P.Library

/-- `file_path` of a context that `get_or_create_context` makes for the chunk. -/
def TransferManager.tempPath (t : TransferManager) (chunkId : Bytes) : DiskPath :=
  ⟨t.progressDir, chunkId ++ ascii ".tmp"⟩

def Owns (t : TransferManager) (chunkId : Bytes) (c : Nat) : Prop :=
  ∃ context, t.contexts[c]? = some context ∧ context.chunkId = chunkId ∧
    context.filePath = t.tempPath chunkId

def Owned (t : TransferManager) : Prop :=
  ∀ chunkId c, t.activeTransfers.lookup chunkId = some c → Owns t chunkId c

/-- Nothing has changed but what concerns the chunk. -/
structure ChangesOnly (chunkId : Bytes) (t t' : TransferManager) : Prop where
  running : t'.running = t.running
  dir : t'.progressDir = t.progressDir
  outcome : t'.progressFiles.outcome = t.progressFiles.outcome
  progress : ∀ other, other ≠ chunkId → t'.loadProgress other = t.loadProgress other
  active : ∀ other, other ≠ chunkId →
    t'.activeTransfers.lookup other = t.activeTransfers.lookup other
  contexts : ∀ (c : Nat) (context : ChunkTransferContext), t.contexts[c]? = some context →
    context.chunkId ≠ chunkId → t'.contexts[c]? = some context
  owns : ∀ other c, Owns t other c → Owns t' other c
  owned : Owned t → Owned t'

variable {chunkId : Bytes} {t t' t'' : TransferManager}

theorem owned_of_empty (h : t.activeTransfers = ∅) : Owned t := by
  intro chunkId c hlookup
  rw [h] at hlookup
  cases hlookup

theorem owns_of_contexts (hdir : t'.progressDir = t.progressDir)
    (hcontexts : t'.contexts = t.contexts) {c : Nat} (h : Owns t chunkId c) :
    Owns t' chunkId c := by
  unfold Owns TransferManager.tempPath
  rw [hcontexts, hdir]
  exact h

/-- The files and the table of saved progress may have changed. -/
theorem changesOnly_of_progress (hrunning : t'.running = t.running)
    (hdir : t'.progressDir = t.progressDir)
    (houtcome : t'.progressFiles.outcome = t.progressFiles.outcome)
    (hactive : t'.activeTransfers = t.activeTransfers) (hcontexts : t'.contexts = t.contexts)
    (hprogress : ∀ other, other ≠ chunkId → t'.loadProgress other = t.loadProgress other) :
    ChangesOnly chunkId t t' where
  running := hrunning
  dir := hdir
  outcome := houtcome
  progress := hprogress
  active other _ := by rw [hactive]
  contexts c context hcontext _ := by rw [hcontexts, hcontext]
  owns other c := owns_of_contexts hdir hcontexts
  owned h other c hlookup := by
    rw [hactive] at hlookup
    exact owns_of_contexts hdir hcontexts (h other c hlookup)

theorem changesOnly_of_contexts (hrunning : t'.running = t.running)
    (hdir : t'.progressDir = t.progressDir) (hfiles : t'.progressFiles = t.progressFiles)
    (hsaved : t'.savedProgress = t.savedProgress)
    (hactive : t'.activeTransfers = t.activeTransfers) (hcontexts : t'.contexts = t.contexts) :
    ChangesOnly chunkId t t' := by
  refine changesOnly_of_progress hrunning hdir (by rw [hfiles]) hactive hcontexts fun other _ => ?_
  simp only [TransferManager.loadProgress, TransferManager.progressPath, hdir, hfiles, hsaved]

theorem ChangesOnly.refl (chunkId : Bytes) (t : TransferManager) : ChangesOnly chunkId t t :=
  changesOnly_of_contexts rfl rfl rfl rfl rfl rfl

theorem ChangesOnly.trans (h : ChangesOnly chunkId t t') (h' : ChangesOnly chunkId t' t'') :
    ChangesOnly chunkId t t'' where
  running := h'.running.trans h.running
  dir := h'.dir.trans h.dir
  outcome := h'.outcome.trans h.outcome
  progress other hne := (h'.progress other hne).trans (h.progress other hne)
  active other hne := (h'.active other hne).trans (h.active other hne)
  contexts c context hcontext hne := h'.contexts c context (h.contexts c context hcontext hne) hne
  owns other c howns := h'.owns other c (h.owns other c howns)
  owned howned := h'.owned (h.owned howned)

theorem ChangesOnly.context_kept {other : Bytes} {c : Nat} (h : ChangesOnly other t t')
    (howns : Owns t chunkId c) (hne : other ≠ chunkId) : t'.contexts[c]? = t.contexts[c]? := by
  obtain ⟨context, hcontext, hchunk, -⟩ := howns
  rw [hcontext]
  exact h.contexts c context hcontext fun hsame => hne (hsame.symm.trans hchunk)

theorem Quiet.changesOnly {s s' : Node} (h : Quiet s s') (chunkId : Bytes) :
    ChangesOnly chunkId s.transfer s'.transfer := by
  obtain ⟨ticks, upload, download, rfl⟩ := h
  exact changesOnly_of_contexts rfl rfl rfl rfl rfl rfl

/-! ## Single changes -/

def KeepsChunk (f : ChunkTransferContext → ChunkTransferContext) : Prop :=
  ∀ x, (f x).chunkId = x.chunkId ∧ (f x).filePath = x.filePath

theorem owns_updateContext {c ctx : Nat} {other : Bytes}
    {f : ChunkTransferContext → ChunkTransferContext} (hf : KeepsChunk f) :
    Owns (t.updateContext ctx f) other c ↔ Owns t other c := by
  unfold Owns TransferManager.tempPath TransferManager.updateContext
  rw [List.getElem?_modify]
  cases t.contexts[c]? with
  | none => simp
  | some context =>
      by_cases hctx : ctx = c
      · simp [hctx, (hf context).1, (hf context).2]
      · simp [hctx]

theorem changesOnly_updateContext {c : Nat} (howns : Owns t chunkId c)
    {f : ChunkTransferContext → ChunkTransferContext} (hf : KeepsChunk f) :
    ChangesOnly chunkId t (t.updateContext c f) where
  running := rfl
  dir := rfl
  outcome := rfl
  progress _ _ := rfl
  active _ _ := rfl
  contexts other context hcontext hne := by
    obtain ⟨own, hown, hchunk, -⟩ := howns
    have hdiff : c ≠ other := by
      rintro rfl
      rw [hown] at hcontext
      cases hcontext
      exact hne hchunk
    simp only [TransferManager.updateContext]
    rw [List.getElem?_modify, hcontext]
    simp [hdiff]
  owns other ctx h := (owns_updateContext hf).mpr h
  owned h other ctx hlookup := (owns_updateContext hf).mpr (h other ctx hlookup)

theorem changesOnly_removeTransfer (t : TransferManager) (chunkId : Bytes) :
    ChangesOnly chunkId t (t.removeTransfer chunkId) where
  running := rfl
  dir := rfl
  outcome := rfl
  progress _ _ := rfl
  active other hne := AList.lookup_erase_ne hne
  contexts _ _ h _ := h
  owns _ _ h := h
  owned h other c hlookup := by
    by_cases hsame : other = chunkId
    · subst hsame
      simp [TransferManager.removeTransfer] at hlookup
    · refine h other c ?_
      rwa [TransferManager.removeTransfer, AList.lookup_erase_ne hsame] at hlookup

theorem progressPath_ne_tempPath (t : TransferManager) (chunkId other : Bytes) :
    t.progressPath other ≠ t.tempPath chunkId := by
  intro heq
  have hnames : other ++ ascii ".progress" = chunkId ++ ascii ".tmp" :=
    congrArg DiskPath.filename heq
  have hends := congrArg List.getLast? hnames
  have hlast : (ascii ".progress").getLast? = some 115 ∧ (ascii ".tmp").getLast? = some 112 := by
    decide
  rw [List.getLast?_append, List.getLast?_append, hlast.1, hlast.2] at hends
  simp at hends

theorem progressPath_injective {other : Bytes} (hne : other ≠ chunkId) :
    t.progressPath other ≠ t.progressPath chunkId := by
  intro heq
  exact hne (List.append_cancel_right (congrArg DiskPath.filename heq))

theorem loadProgress_congr
    (hsaved : t'.savedProgress.lookup chunkId = t.savedProgress.lookup chunkId)
    (hread : t'.progressFiles.read (t'.progressPath chunkId) =
      t.progressFiles.read (t.progressPath chunkId)) :
    t'.loadProgress chunkId = t.loadProgress chunkId := by
  unfold TransferManager.loadProgress
  rw [hsaved, hread]

theorem changesOnly_saveProgress (t : TransferManager) (chunkId : Bytes) (n : Nat) :
    ChangesOnly chunkId t (t.saveProgress chunkId n) := by
  have hread : ∀ other, other ≠ chunkId → (t.progressFiles.write (t.progressPath chunkId)
      (decimal n ++ ascii "\n")).2.read (t.progressPath other) =
        t.progressFiles.read (t.progressPath other) := fun other hne =>
    FileSystem.read_write_other _ (progressPath_injective hne)
  simp only [TransferManager.saveProgress]
  split
  · exact changesOnly_of_progress rfl rfl (FileSystem.outcome_write _ _ _) rfl rfl
      fun other hne => loadProgress_congr (AList.lookup_insert_ne hne) (hread other hne)
  · exact changesOnly_of_progress rfl rfl (FileSystem.outcome_write _ _ _) rfl rfl
      fun other hne => loadProgress_congr rfl (hread other hne)

theorem changesOnly_removeTemp {ctx : Nat} (howns : Owns t chunkId ctx) :
    ChangesOnly chunkId t (removeTemp ctx t).2 := by
  obtain ⟨context, hcontext, -, hpath⟩ := howns
  simp only [removeTemp, hcontext, hpath]
  exact changesOnly_of_progress rfl rfl (FileSystem.outcome_tryRemove _ _) rfl rfl
    fun other _ => loadProgress_congr rfl
      (FileSystem.read_tryRemove_other (progressPath_ne_tempPath t chunkId other))

/-! ## The sections of `download_chunk` and `cancel_transfer` -/

theorem getOrCreateContext_settings (t : TransferManager) (chunkId : Bytes) (resume : Bool) :
    (t.getOrCreateContext chunkId resume).2.running = t.running ∧
      (t.getOrCreateContext chunkId resume).2.hasNodeDiscovery = t.hasNodeDiscovery := by
  unfold TransferManager.getOrCreateContext
  split
  · exact ⟨rfl, rfl⟩
  · exact ⟨rfl, rfl⟩

theorem openContext_settings (request : TransferRequest) (t : TransferManager) :
    (openContext request t).2.running = t.running ∧
      (openContext request t).2.hasNodeDiscovery = t.hasNodeDiscovery := by
  have hset : ∀ (t : TransferManager) c f, (t.updateContext c f).running = t.running ∧
      (t.updateContext c f).hasNodeDiscovery = t.hasNodeDiscovery := fun _ _ _ => ⟨rfl, rfl⟩
  simp only [openContext, hset, apply_ite TransferManager.running,
    apply_ite TransferManager.hasNodeDiscovery, ite_self]
  exact getOrCreateContext_settings _ _ _

theorem progressFiles_openContext (request : TransferRequest) (t : TransferManager) :
    (openContext request t).2.progressFiles = t.progressFiles := by
  have hset : ∀ (t : TransferManager) c f,
      (t.updateContext c f).progressFiles = t.progressFiles := fun _ _ _ => rfl
  have hmade : ∀ (t : TransferManager) chunkId resume,
      (t.getOrCreateContext chunkId resume).2.progressFiles = t.progressFiles := by
    intro t chunkId resume
    unfold TransferManager.getOrCreateContext
    split
    · rfl
    · rfl
  simp only [openContext, hset, apply_ite TransferManager.progressFiles, ite_self]
  exact hmade _ _ _

theorem findCandidates_openContext (request : TransferRequest) (t : TransferManager)
    (bytes : Nat) (discovery : NodeDiscovery) :
    findCandidates request ((openContext request t).2.reserveBuffer bytes).2 discovery =
      findCandidates request t discovery := by
  unfold findCandidates TransferManager.reserveBuffer
  simp only [(openContext_settings request t).2]

theorem canReserve_getOrCreateContext (t : TransferManager) (chunkId : Bytes) (resume : Bool)
    (bytes : Nat) :
    (t.getOrCreateContext chunkId resume).2.canReserve bytes = t.canReserve bytes := by
  unfold TransferManager.getOrCreateContext
  split
  · rfl
  · rfl

theorem canReserve_openContext (request : TransferRequest) (t : TransferManager) (bytes : Nat) :
    (openContext request t).2.canReserve bytes = t.canReserve bytes := by
  have hset : ∀ (t : TransferManager) c f,
      (t.updateContext c f).canReserve bytes = t.canReserve bytes := fun _ _ _ => rfl
  simp only [openContext, hset, apply_ite (fun t : TransferManager => t.canReserve bytes), ite_self]
  exact canReserve_getOrCreateContext _ _ _ _

theorem changesOnly_getOrCreateContext (howned : Owned t) (chunkId : Bytes) (resume : Bool) :
    ChangesOnly chunkId t (t.getOrCreateContext chunkId resume).2 ∧
      Owns (t.getOrCreateContext chunkId resume).2 chunkId
        (t.getOrCreateContext chunkId resume).1 := by
  unfold TransferManager.getOrCreateContext
  split
  · rename_i ctx hlookup
    exact ⟨ChangesOnly.refl chunkId t, howned chunkId ctx hlookup⟩
  · have hkept : ∀ {c : Nat} {context : ChunkTransferContext} (new : ChunkTransferContext),
        t.contexts[c]? = some context → (t.contexts ++ [new])[c]? = some context := by
      intro c context new hcontext
      rw [List.getElem?_append_left (List.getElem?_eq_some_iff.mp hcontext).1, hcontext]
    refine ⟨⟨rfl, rfl, rfl, fun _ _ => rfl, fun other hne => AList.lookup_insert_ne hne,
      fun c context hcontext _ => hkept _ hcontext, fun other c howns => ?_,
      fun _ other c hlookup => ?_⟩, ?_⟩
    · obtain ⟨context, hcontext, hchunk⟩ := howns
      exact ⟨context, hkept _ hcontext, hchunk⟩
    · by_cases hsame : other = chunkId
      · subst hsame
        rw [AList.lookup_insert] at hlookup
        cases hlookup
        exact ⟨_, List.getElem?_concat_length, rfl, rfl⟩
      · rw [AList.lookup_insert_ne hsame] at hlookup
        obtain ⟨context, hcontext, hchunk⟩ := howned other c hlookup
        exact ⟨context, hkept _ hcontext, hchunk⟩
    · exact ⟨_, List.getElem?_concat_length, rfl, rfl⟩

theorem changesOnly_openContext (howned : Owned t) (request : TransferRequest) :
    ChangesOnly request.chunkId t (openContext request t).2 ∧
      Owns (openContext request t).2 request.chunkId (openContext request t).1 := by
  have hcounted : ChangesOnly request.chunkId t
      { t with stats := { t.stats with totalDownloads := t.stats.totalDownloads + 1 } } :=
    changesOnly_of_contexts rfl rfl rfl rfl rfl rfl
  obtain ⟨hmade, howns⟩ := changesOnly_getOrCreateContext (hcounted.owned howned) request.chunkId
    request.enableResume
  have hupdate : ∀ {t' : TransferManager} {c : Nat}
      {f : ChunkTransferContext → ChunkTransferContext},
      ChangesOnly request.chunkId t t' → Owns t' request.chunkId c →
        KeepsChunk f → ChangesOnly request.chunkId t (t'.updateContext c f) ∧
          Owns (t'.updateContext c f) request.chunkId c := fun hchanges howns hf =>
    ⟨hchanges.trans (changesOnly_updateContext howns hf), (owns_updateContext hf).mpr howns⟩
  have hresume : ∀ (n : Nat) {t' : TransferManager} {c : Nat}, ChangesOnly request.chunkId t t' →
      Owns t' request.chunkId c →
        let resumed := if 0 < n then t'.updateContext c fun context =>
            { context with isResume := true, downloadedSize := n }
          else t'
        ChangesOnly request.chunkId t resumed ∧ Owns resumed request.chunkId c := by
    intro n t' c hchanges howns
    simp only
    split
    · exact hupdate hchanges howns fun _ => ⟨rfl, rfl⟩
    · exact ⟨hchanges, howns⟩
  have hresumed := fun n => hresume n (hcounted.trans hmade) howns
  exact hupdate (hresumed _).1 (hresumed _).2 fun _ => ⟨rfl, rfl⟩

theorem selectKPeers_frame (t : TransferManager) (discovery : NodeDiscovery)
    (candidates : List PeerNode) (k : UInt32) (mode : TransferMode) :
    ∃ shuffles, (t.selectKPeers discovery candidates k mode).2 =
      { t with shuffles := shuffles } := by
  unfold TransferManager.selectKPeers
  split
  · exact ⟨_, rfl⟩
  · cases mode with
    | nearestFirst => exact ⟨_, rfl⟩
    | fastestFirst => exact ⟨_, rfl⟩
    | rarestFirst =>
        simp only
        split
        · exact ⟨_, rfl⟩
        · exact ⟨_, rfl⟩

theorem beginDownload_frame (request : TransferRequest) (s : Node) :
    ∃ stats shuffles reservations discovery, (beginDownload request s).2 =
      { s with
        transfer := { (openContext request s.transfer).2 with
          stats := stats, shuffles := shuffles, reservations := reservations }
        discovery := discovery } := by
  simp only [beginDownload]
  split
  · exact ⟨_, _, _, _, rfl⟩
  · split
    · exact ⟨_, _, _, _, rfl⟩
    · obtain ⟨shuffles, hselected⟩ := selectKPeers_frame
        ((openContext request s.transfer).2.reserveBuffer (totalSize request)).2
        (findCandidates request
          ((openContext request s.transfer).2.reserveBuffer (totalSize request)).2 s.discovery).2
        (findCandidates request
          ((openContext request s.transfer).2.reserveBuffer (totalSize request)).2 s.discovery).1
        (if 0 < request.kValue then request.kValue
          else ((openContext request s.transfer).2.reserveBuffer (totalSize request)).2.selectionK)
        request.mode
      rw [hselected]
      exact ⟨_, _, _, _, rfl⟩

theorem changesOnly_beginDownload {s : Node} (howned : Owned s.transfer)
    (request : TransferRequest) :
    ChangesOnly request.chunkId s.transfer (beginDownload request s).2.transfer ∧
      Owns (beginDownload request s).2.transfer request.chunkId
        (openContext request s.transfer).1 := by
  obtain ⟨hopened, howns⟩ := changesOnly_openContext howned request
  obtain ⟨stats, shuffles, reservations, discovery, hbegun⟩ := beginDownload_frame request s
  rw [hbegun]
  have hcounted : ChangesOnly request.chunkId (openContext request s.transfer).2
      { (openContext request s.transfer).2 with
        stats := stats, shuffles := shuffles, reservations := reservations } :=
    changesOnly_of_contexts rfl rfl rfl rfl rfl rfl
  exact ⟨hopened.trans hcounted, hcounted.owns _ _ howns⟩

/-- A call that begins now gets a buffer for its result and has somebody to ask. -/
structure CanBegin (request : TransferRequest) (s : Node) : Prop where
  buffer : s.transfer.canReserve (totalSize request) = true
  candidates : (findCandidates request s.transfer s.discovery).1 ≠ []

/-- What a call that does not get to its race ends in. -/
def earlyResult : Begun → JobResult
  | .unreserved => .thrown
  | .nobody | .race _ _ _ => .chunk none

theorem beginDownload_cases (request : TransferRequest) (s : Node) :
    (¬CanBegin request s ∧
      ((beginDownload request s).1 = .unreserved ∨ (beginDownload request s).1 = .nobody)) ∨
    (CanBegin request s ∧ ∃ selected, (beginDownload request s).1 =
        .race (openContext request s.transfer).1
          (findCandidates request s.transfer s.discovery).1 selected ∧
      ∃ rest, (selected ++ rest).Perm (findCandidates request s.transfer s.discovery).1) := by
  have hreserve : ((openContext request s.transfer).2.reserveBuffer (totalSize request)).1 =
      s.transfer.canReserve (totalSize request) := canReserve_openContext _ _ _
  simp only [beginDownload, findCandidates_openContext, hreserve]
  split
  · rename_i hfails
    refine Or.inl ⟨fun hbegins => ?_, Or.inl rfl⟩
    rw [hbegins.buffer] at hfails
    cases hfails
  rename_i hreserved
  split
  · rename_i hnil
    exact Or.inl ⟨fun hbegins => hbegins.candidates (List.isEmpty_iff.mp hnil), Or.inr rfl⟩
  · rename_i hsome
    refine Or.inr ⟨⟨by simpa using hreserved, ?_⟩, _, rfl, selectKPeers_perm _ _ _ _ _⟩
    simpa using hsome

theorem canReserve_of_unreserved {request : TransferRequest} {s : Node}
    (hbegun : (beginDownload request s).1 = .unreserved) :
    s.transfer.canReserve (totalSize request) = false := by
  have hreserve : ((openContext request s.transfer).2.reserveBuffer (totalSize request)).1 =
      s.transfer.canReserve (totalSize request) := canReserve_openContext _ _ _
  simp only [beginDownload, hreserve] at hbegun
  split at hbegun
  · rename_i hfails
    simpa using hfails
  · split at hbegun
    · cases hbegun
    · cases hbegun

theorem candidates_of_nobody {request : TransferRequest} {s : Node}
    (hbegun : (beginDownload request s).1 = .nobody) :
    (findCandidates request s.transfer s.discovery).1 = [] := by
  simp only [beginDownload, findCandidates_openContext] at hbegun
  split at hbegun
  · cases hbegun
  · split at hbegun
    · rename_i hnil
      exact List.isEmpty_iff.mp hnil
    · cases hbegun

theorem beginDownload_of_not {request : TransferRequest} {s : Node}
    (hcannot : ¬CanBegin request s) :
    (beginDownload request s).1 = .unreserved ∨ (beginDownload request s).1 = .nobody := by
  rcases beginDownload_cases request s with ⟨-, hearly⟩ | ⟨hbegins, -⟩
  · exact hearly
  · exact absurd hbegins hcannot

theorem changesOnly_endDownload {ctx : Nat} (howns : Owns t chunkId ctx)
    (result : Option Bytes) : ChangesOnly chunkId t (endDownload chunkId ctx result t).2 := by
  cases result with
  | none =>
      have hcounted : ChangesOnly chunkId t
          { t with stats := { t.stats with failedDownloads := t.stats.failedDownloads + 1 } } :=
        changesOnly_of_contexts rfl rfl rfl rfl rfl rfl
      exact hcounted.trans (changesOnly_removeTransfer _ chunkId)
  | some data =>
      have hsaved := changesOnly_saveProgress t chunkId
        ((t.contexts[ctx]?.map (·.downloadedSize)).getD 0)
      have hcounted : ∀ (t : TransferManager) stats,
          ChangesOnly chunkId t { t with stats := stats } :=
        fun _ _ => changesOnly_of_contexts rfl rfl rfl rfl rfl rfl
      have hremoved := hsaved.trans (changesOnly_removeTemp (hsaved.owns _ _ howns))
      simp only [endDownload]
      split
      · exact hremoved
      · exact (hremoved.trans (changesOnly_removeTransfer _ chunkId)).trans (hcounted _ _)

theorem changesOnly_cancelTransfer (howned : Owned t) (chunkId : Bytes) :
    ChangesOnly chunkId t (t.cancelTransfer chunkId) := by
  unfold TransferManager.cancelTransfer
  cases hlookup : t.activeTransfers.lookup chunkId with
  | none => exact ChangesOnly.refl chunkId t
  | some ctx =>
      have hraised : ChangesOnly chunkId t
          (t.updateContext ctx fun c => { c with stopFlag := true }) :=
        changesOnly_updateContext (howned chunkId ctx hlookup) fun _ => ⟨rfl, rfl⟩
      exact hraised.trans (changesOnly_saveProgress _ chunkId _)

theorem saveProgress_settings (t : TransferManager) (chunkId : Bytes) (n : Nat) :
    (t.saveProgress chunkId n).contexts = t.contexts ∧
      (t.saveProgress chunkId n).activeTransfers = t.activeTransfers ∧
      (∀ path, (t.saveProgress chunkId n).progressFiles.removable path =
        t.progressFiles.removable path) ∧
      (t.saveProgress chunkId n).running = t.running := by
  simp only [TransferManager.saveProgress]
  split
  · exact ⟨rfl, rfl, fun path => FileSystem.removable_write _ _ _ _, rfl⟩
  · exact ⟨rfl, rfl, fun path => FileSystem.removable_write _ _ _ _, rfl⟩

theorem progressFiles_beginDownload (request : TransferRequest) (s : Node) :
    (beginDownload request s).2.transfer.progressFiles = s.transfer.progressFiles := by
  obtain ⟨stats, shuffles, reservations, discovery, hbegun⟩ := beginDownload_frame request s
  rw [hbegun]
  exact progressFiles_openContext request s.transfer

theorem savedProgress_removeTemp (ctx : Nat) (t : TransferManager) :
    (removeTemp ctx t).2.savedProgress = t.savedProgress := by
  unfold removeTemp
  split
  · rfl
  · rfl

theorem removeTemp_settings (ctx : Nat) (t : TransferManager) :
    (removeTemp ctx t).2.contexts = t.contexts ∧
      (removeTemp ctx t).2.activeTransfers = t.activeTransfers ∧
      (removeTemp ctx t).2.running = t.running := by
  unfold removeTemp
  split
  · exact ⟨rfl, rfl, rfl⟩
  · exact ⟨rfl, rfl, rfl⟩

/-- An exception leaves the end of a call that has data if the temporary file
cannot be removed. -/
theorem endDownload_throws_iff {ctx : Nat} (howns : Owns t chunkId ctx) (result : Option Bytes) :
    (endDownload chunkId ctx result t).1 = false ↔
      result.isSome = true ∧ t.progressFiles.removable (t.tempPath chunkId) = false := by
  cases result with
  | none => exact ⟨nofun, nofun⟩
  | some data =>
      obtain ⟨context, hcontext, -, hpath⟩ := howns
      have hremoved : ∀ n, (removeTemp ctx (t.saveProgress chunkId n)).1 =
          t.progressFiles.removable (t.tempPath chunkId) := by
        intro n
        obtain ⟨hcontexts, -, hremovable, -⟩ := saveProgress_settings t chunkId n
        unfold removeTemp
        rw [hcontexts, hcontext]
        simp only [FileSystem.tryRemove, hpath, hremovable]
      simp only [endDownload, hremoved, Option.isSome_some, true_and]
      cases t.progressFiles.removable (t.tempPath chunkId) with
      | false => simp
      | true => simp

theorem activeTransfers_endDownload {ctx : Nat} {result : Option Bytes}
    (hthrows : (endDownload chunkId ctx result t).1 = false) :
    (endDownload chunkId ctx result t).2.activeTransfers = t.activeTransfers := by
  cases result with
  | none => cases hthrows
  | some data =>
      simp only [endDownload] at hthrows ⊢
      split
      · rw [(removeTemp_settings ctx _).2.1, (saveProgress_settings t chunkId _).2.1]
      · rename_i hremoved
        rw [if_neg hremoved] at hthrows
        cases hthrows

/-- At the end of a call its chunk has no entry, unless an exception has left it. -/
theorem lookup_endDownload {ctx : Nat} {result : Option Bytes}
    (hends : (endDownload chunkId ctx result t).1 = true) :
    (endDownload chunkId ctx result t).2.activeTransfers.lookup chunkId = none := by
  cases result with
  | none => exact AList.lookup_erase _ _
  | some data =>
      simp only [endDownload] at hends ⊢
      split
      · rename_i hrefused
        rw [if_pos hrefused] at hends
        cases hends
      · exact AList.lookup_erase _ _

end ElioP2P.P2P
