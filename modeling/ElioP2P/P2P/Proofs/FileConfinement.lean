import ElioP2P.Library.Paths
import ElioP2P.P2P.Proofs.ChunkFrame

/-!
# Where the files of a chunk lie

A chunk id names a file in the disk cache and two files in the progress
directory.  Only the first of them gets a sanitised name.
-/

namespace ElioP2P.P2P

open ElioP2P.Library ElioP2P.Cache

/-- The initial value of `progress_dir`, which nothing changes. -/
def progressDirectory : Bytes := ascii "/tmp/eliop2p_progress"

namespace TransferManager

theorem filePath_getOrCreateContext {t : TransferManager} {chunkId : Bytes} (resume : Bool)
    (hnew : t.activeTransfers.lookup chunkId = none) :
    ((t.getOrCreateContext chunkId resume).2.contexts[(t.getOrCreateContext chunkId resume).1]?).map
      (·.filePath) = some (t.tempPath chunkId) := by
  rw [getOrCreateContext, hnew]
  simp [tempPath]

end TransferManager

def Confined (dir : Bytes) (path : DiskPath) : Prop := IsDirectChild (opened dir) (opened path.text)

/-- The directories of a relative path are left again, and those it climbs out
of are entered again. -/
def LeadsBack (dir : List Bytes) (walk : Nat × List Bytes) : Prop := walk.2 = dir.take walk.1

/-- The part of a chunk id in front of its last slash leads back to the progress
directory, or the part in front of its first NUL to an entry of it. -/
def StaysInProgressDirectory (chunkId : Bytes) : Prop :=
  if 0 ∈ chunkId then
    ∃ name, (relative (components (opened chunkId))).2 =
      name :: (resolve progressDirectory).take (relative (components (opened chunkId))).1
  else LeadsBack (resolve progressDirectory) (relative (components chunkId).dropLast)

/-! ## Files of the transfer manager -/

theorem confined_progress_iff {chunkId suffix : Bytes} (hlength : 3 ≤ suffix.length)
    (hslash : 47 ∉ suffix) (hnul : 0 ∉ suffix) :
    Confined progressDirectory ⟨progressDirectory, chunkId ++ suffix⟩ ↔
      StaysInProgressDirectory chunkId := by
  have hdir : 0 ∉ progressDirectory := by decide
  have htext : opened (DiskPath.text ⟨progressDirectory, chunkId ++ suffix⟩) =
      progressDirectory ++ 47 :: opened (chunkId ++ suffix) := by
    rw [DiskPath.text, opened_append hdir, opened_slash]
  rw [Confined, opened_of_notMem hdir, htext, isDirectChild_append_iff (by decide) (by decide)]
  unfold StaysInProgressDirectory
  by_cases h : 0 ∈ chunkId
  · rw [if_pos h, opened_append_of_mem h]
  · rw [if_neg h, opened_append h, opened_of_notMem hnul]
    obtain ⟨last, hlast, hcomponents⟩ := components_append_suffix chunkId hslash
    have hname : IsEntryName (last ++ suffix) := by
      refine ⟨?_, ?_, ?_, by simp [hlast, hslash]⟩
      all_goals
        intro heq
        have hlong := congrArg List.length heq
        simp only [List.length_append, List.length_nil, List.length_cons, dot, dotDot] at hlong
        omega
    rw [hcomponents, relative_concat _ hname]
    simp only [List.cons.injEq]
    exact ⟨fun ⟨_, _, heq⟩ => heq, fun heq => ⟨_, rfl, heq⟩⟩

/-! ## The chunk file -/

theorem isFilenameByte_of_mem_sanitize {chunkId : Bytes} {b : UInt8}
    (h : b ∈ sanitizeChunkFilename chunkId) : isFilenameByte b = true := by
  unfold sanitizeChunkFilename at h
  simp only at h
  split at h
  · rw [List.mem_singleton.mp h]
    decide
  · obtain ⟨c, -, rfl⟩ := List.mem_map.mp h
    split
    · next hname => exact hname
    · decide

theorem entryName_chunkFile (chunkId : Bytes) :
    IsEntryName (sanitizeChunkFilename chunkId ++ ascii ".chunk") ∧
      0 ∉ sanitizeChunkFilename chunkId ++ ascii ".chunk" := by
  have hname : ∀ b : UInt8, isFilenameByte b = false → b ∉ ascii ".chunk" →
      b ∉ sanitizeChunkFilename chunkId ++ ascii ".chunk" := by
    intro b hb hsuffix hmem
    rcases List.mem_append.mp hmem with h | h
    · rw [isFilenameByte_of_mem_sanitize h] at hb
      cases hb
    · exact hsuffix h
  have hlength : (ascii ".chunk").length = 6 := by decide
  refine ⟨⟨?_, ?_, ?_, hname 47 (by decide) (by decide)⟩, hname 0 (by decide) (by decide)⟩
  all_goals
    intro heq
    have hlong := congrArg List.length heq
    simp only [List.length_append, List.length_nil, List.length_cons, dot, dotDot, hlength] at hlong
    omega

/-- The chunk file lies in the `chunks` directory, whatever the chunk id is. -/
theorem confined_chunkPath_iff (s : ChunkManager) (chunkId : Bytes) :
    Confined s.chunksDir (s.chunkPath chunkId) ↔ 0 ∉ s.diskCachePath := by
  obtain ⟨hname, hnul⟩ := entryName_chunkFile chunkId
  have hdir : 0 ∈ s.chunksDir ↔ 0 ∈ s.diskCachePath := by
    have hchunks : 0 ∉ ascii "chunks" := by decide
    have hslash : 0 ∉ ascii "/" := by decide
    unfold ChunkManager.chunksDir joinPath
    split
    · simp [hchunks]
    · simp [hchunks, hslash]
  have hne : s.chunksDir ≠ [] := by
    have hchunks : ascii "chunks" ≠ [] := by decide
    unfold ChunkManager.chunksDir joinPath
    split
    · simp [hchunks]
    · simp [hchunks]
  rw [Confined, ChunkManager.chunkPath, DiskPath.text, ← hdir]
  constructor
  · intro hchild hmem
    rw [opened_append_of_mem hmem] at hchild
    obtain ⟨-, name, -, heq⟩ := hchild
    have hlong := congrArg List.length heq
    simp at hlong
  · intro hnone
    rw [opened_append hnone, opened_of_notMem hnone]
    rw [opened_slash, opened_of_notMem hnul]
    exact isDirectChild_of_entryName hne hname

/-- All files of a chunk lie directly in their directories exactly if the chunk
id, read as a path, does not lead out of the progress directory. -/
theorem chunkFiles_confined_iff (s : ChunkManager) {t : TransferManager}
    (hdir : t.progressDir = progressDirectory) (chunkId : Bytes) :
    (Confined s.chunksDir (s.chunkPath chunkId) ∧ Confined t.progressDir (t.tempPath chunkId) ∧
        Confined t.progressDir (t.progressPath chunkId)) ↔
      0 ∉ s.diskCachePath ∧ StaysInProgressDirectory chunkId := by
  rw [TransferManager.tempPath, TransferManager.progressPath, hdir, confined_chunkPath_iff,
    confined_progress_iff (by decide) (by decide) (by decide),
    confined_progress_iff (by decide) (by decide) (by decide), and_self]

theorem staysInProgressDirectory_of_notMem {chunkId : Bytes} (hslash : 47 ∉ chunkId)
    (hnul : 0 ∉ chunkId) : StaysInProgressDirectory chunkId := by
  rw [StaysInProgressDirectory, if_neg hnul, components_of_notMem hslash]
  rfl

theorem chunkFiles_confined_plain :
    Confined sampleNode.cache.chunksDir (sampleNode.cache.chunkPath (ascii "c_0")) ∧
      Confined sampleTransfer.progressDir (sampleTransfer.tempPath (ascii "c_0")) ∧
      Confined sampleTransfer.progressDir (sampleTransfer.progressPath (ascii "c_0")) :=
  (chunkFiles_confined_iff sampleNode.cache (t := sampleTransfer) rfl (ascii "c_0")).mpr
    ⟨by decide, staysInProgressDirectory_of_notMem (by decide) (by decide)⟩

/-- A chunk of the object `../../x` has its files next to the progress directory. -/
theorem not_chunkFiles_confined_climbing :
    sampleTransfer.progressDir = progressDirectory ∧
      ¬ (Confined sampleNode.cache.chunksDir (sampleNode.cache.chunkPath (ascii "b/../../x_0")) ∧
        Confined sampleTransfer.progressDir (sampleTransfer.tempPath (ascii "b/../../x_0")) ∧
        Confined sampleTransfer.progressDir
          (sampleTransfer.progressPath (ascii "b/../../x_0"))) := by
  refine ⟨rfl, fun ⟨_, htemp, _⟩ => ?_⟩
  have hstays : StaysInProgressDirectory (ascii "b/../../x_0") :=
    (confined_progress_iff (by decide) (by decide) (by decide)).mp htemp
  rw [StaysInProgressDirectory, if_neg (by decide)] at hstays
  revert hstays
  unfold LeadsBack
  decide

end ElioP2P.P2P
