import ElioP2P.Cache.Proofs.Refinement
import ElioP2P.Library.Maps

/-!
# Reopening the disk tier

A new manager on the same path indexes every chunk file under the stem of its
name.  A running manager indexes the same file under the chunk id.  The two
agree on ids that are their own file name and on no others.
-/

namespace ElioP2P.Cache

open ElioP2P.Library

/-! ## File names are fixed points of sanitising -/

theorem sanitizeChunkFilename_idem (chunkId : Bytes) :
    sanitizeChunkFilename (sanitizeChunkFilename chunkId) = sanitizeChunkFilename chunkId := by
  have hbyte : ∀ b : UInt8, isFilenameByte (if isFilenameByte b then b else 95) = true := by
    intro b
    split
    · assumption
    · decide
  generalize hout : (chunkId.map fun b => if isFilenameByte b then b else 95) = out
  have hmap : (out.map fun b => if isFilenameByte b then b else 95) = out := by
    rw [← hout, List.map_map]
    apply List.map_congr_left
    intro b _
    exact if_pos (hbyte b)
  unfold sanitizeChunkFilename
  simp only [hout]
  by_cases hspecial : (out.isEmpty || out == ascii "." || out == ascii "..") = true
  · rw [if_pos hspecial]
    decide
  · rw [if_neg hspecial, hmap, if_neg hspecial]

namespace ChunkManager

def chunkFile (stem : Bytes) : Bytes := stem ++ ascii ".chunk"

theorem chunkPath_eq (s : ChunkManager) (id : Bytes) :
    s.chunkPath id = ⟨s.chunksDir, chunkFile (sanitizeChunkFilename id)⟩ := rfl

theorem isSome_lookup_initializeDiskCache {s : ChunkManager} (hpath : s.diskCachePath ≠ [])
    (id : Bytes) :
    (s.initializeDiskCache.2.diskIndex.lookup id).isSome = true ↔
      id ≠ [] ∧ (s.fileSystem.read ⟨s.chunksDir, chunkFile id⟩).isSome = true := by
  have hext : ascii ".chunk" = 46 :: ascii "chunk" := by decide
  have hindex : (s.initializeDiskCache.2.diskIndex.lookup id).isSome = true ↔
      ∃ file ∈ (s.fileSystem.list s.chunksDir).filter
        (fun file => (splitExtension file.1).2 == ascii ".chunk"),
        (splitExtension file.1).1 = id := by
    unfold initializeDiskCache
    rw [if_neg (by simpa using hpath)]
    simp only
    rw [isSome_lookup_foldl_insert]
    simp
  rw [hindex]
  constructor
  · rintro ⟨⟨name, data⟩, hmem, rfl⟩
    simp only [List.mem_filter, beq_iff_eq] at hmem
    obtain ⟨hlist, hchunk⟩ := hmem
    obtain ⟨hname, hstem⟩ :=
      of_splitExtension (Prod.ext rfl hchunk : splitExtension name = (_, ascii ".chunk"))
        (by decide)
    refine ⟨hstem, ?_⟩
    rw [chunkFile, ← hname, FileSystem.mem_list.mp hlist]
    rfl
  · rintro ⟨hne, hfile⟩
    obtain ⟨data, hdata⟩ := Option.isSome_iff_exists.mp hfile
    have hsplit : splitExtension (chunkFile id) = (id, ascii ".chunk") := by
      rw [chunkFile, hext]
      exact splitExtension_append hne (by decide) (by decide +kernel)
    refine ⟨(chunkFile id, data), ?_, ?_⟩
    · simp [List.mem_filter, FileSystem.mem_list.mpr hdata, hsplit]
    · rw [hsplit]

theorem hasChunk_initializeDiskCache {float : FloatArith} {config : CacheConfig}
    {clock : Nat → UInt64} {fs : FileSystem} (hpath : config.diskCachePath ≠ []) (id : Bytes) :
    (new float config clock fs).initializeDiskCache.2.hasChunk id = true ↔
      id ≠ [] ∧
        (fs.read ⟨(new float config clock fs).chunksDir, chunkFile id⟩).isSome = true := by
  have hmemory := (initializeDiskCache_tiers (new float config clock fs)).1
  have hempty : (new float config clock fs).memoryCache.contains id = false := rfl
  rw [hasChunk, hmemory, hempty, Bool.false_or]
  exact isSome_lookup_initializeDiskCache hpath id

/-! ## Which files a run of stores and removals leaves -/

def Op.StoresOrRemoves : Op → Prop
  | .store _ _ | .storeWithMetadata _ _ | .remove _ => True
  | .get _ | .promote _ | .demote _ | .evict | .updateMetadata _ | .openDisk => False

instance : ∀ op : Op, Decidable op.StoresOrRemoves
  | .store _ _ | .storeWithMetadata _ _ | .remove _ => inferInstanceAs (Decidable True)
  | .get _ | .promote _ | .demote _ | .evict | .updateMetadata _ | .openDisk =>
      inferInstanceAs (Decidable False)

def ownsAfterStore (id : Bytes) (owned : Bool) (key : Bytes) : Bool :=
  if key = id then true else if SameFile id key then false else owned

def ownsFile (id : Bytes) (owned : Bool) : Op → Bool
  | .store key _ => ownsAfterStore id owned key
  | .storeWithMetadata metadata data =>
      if SizeOk metadata data then ownsAfterStore id owned metadata.chunkId else owned
  | .remove key => if SameFile id key then false else owned
  | .get _ | .promote _ | .demote _ | .evict | .updateMetadata _ | .openDisk => owned

/-- `id` was stored, not removed since, and its file was neither overwritten nor
deleted through another id since. -/
def StoredAndKept (id : Bytes) (ops : List Op) : Prop := ops.foldl (ownsFile id) false = true

structure FilesKept (id dir : Bytes) (fs : FileSystem) (s : ChunkManager) (owned : Bool) :
    Prop where
  faultless : s.fileSystem.Faultless
  path : s.diskCachePath ≠ []
  sameDir : s.chunksDir = dir
  own : owned = true → (s.loadFromDisk id).isSome = true
  foreign : ∀ name, (∀ k, name ≠ chunkFile (sanitizeChunkFilename k)) →
    s.fileSystem.read ⟨dir, name⟩ = fs.read ⟨dir, name⟩

variable {id dir : Bytes} {fs : FileSystem}

theorem chunksDir_congr {s s' : ChunkManager} (h : SameSetup s s') :
    s'.chunksDir = s.chunksDir := by
  simp [chunksDir, h.diskCachePath]

theorem filesKept_store {fuel : Nat} {s s' : ChunkManager} {metadata : ChunkMetadata}
    {data : Bytes} {owned ok : Bool} (hR : FilesKept id dir fs s owned)
    (h : s.storeChunkWithMetadata fuel metadata data = some (ok, s'))
    (hsize : SizeOk metadata data) :
    FilesKept id dir fs s' (ownsAfterStore id owned metadata.chunkId) := by
  obtain ⟨hsetup, -, hfs, -⟩ := storeChunkWithMetadata_spec h hsize
  have hload := loadFromDisk_storeChunkWithMetadata h hsize id
  refine ⟨hsetup.faultless hR.faultless, ?_, (chunksDir_congr hsetup).trans hR.sameDir, ?_, ?_⟩
  · rw [hsetup.diskCachePath]
    exact hR.path
  · intro howned
    rw [hload]
    unfold ownsAfterStore at howned
    by_cases hfile : SameFile id metadata.chunkId
    · rw [loadFromDisk_persistToDisk_same hR.faultless hR.path hfile]
      rfl
    · rw [loadFromDisk_persistToDisk_other hfile]
      have hkey : metadata.chunkId ≠ id := by
        rintro rfl
        exact hfile rfl
      rw [if_neg hkey, if_neg hfile] at howned
      exact hR.own howned
  · intro name hname
    rw [hfs, ← hR.foreign name hname, persistToDisk, if_neg (by simpa using hR.path)]
    apply FileSystem.read_write_other
    rw [chunkPath_eq]
    intro heq
    exact hname metadata.chunkId (DiskPath.mk.inj heq).2

theorem filesKept_remove {s : ChunkManager} {owned : Bool} (key : Bytes)
    (hR : FilesKept id dir fs s owned) :
    FilesKept id dir fs (s.removeChunk key).2 (if SameFile id key then false else owned) := by
  have hsetup := sameSetup_removeChunk s key
  refine ⟨hsetup.faultless hR.faultless, ?_, (chunksDir_congr hsetup).trans hR.sameDir, ?_, ?_⟩
  · rw [hsetup.diskCachePath]
    exact hR.path
  · intro howned
    by_cases hfile : SameFile id key
    · rw [if_pos hfile] at howned
      cases howned
    · rw [if_neg hfile] at howned
      rw [loadFromDisk_removeChunk, loadFromDisk_deleteFromDisk_other s hfile]
      exact hR.own howned
  · intro name hname
    rw [← hR.foreign name hname]
    simp only [removeChunk, deleteFromDisk]
    rw [if_neg (by simpa using hR.path)]
    apply FileSystem.read_remove_other
    rw [chunkPath_eq]
    intro heq
    exact hname key (DiskPath.mk.inj heq).2

theorem filesKept_apply {H : Sha256} {fuel : Nat} {s s' : ChunkManager} {owned : Bool} {op : Op}
    (hR : FilesKept id dir fs s owned) (hop : op.StoresOrRemoves)
    (h : s.apply H fuel op = some s') : FilesKept id dir fs s' (ownsFile id owned op) := by
  cases op with
  | store key data =>
      obtain ⟨ok, hstore⟩ := exists_of_map_snd h
      rw [storeChunk_eq] at hstore
      refine filesKept_store ?_ hstore (sizeOk_freshMetadata H _ key data)
      exact ⟨hR.faultless, hR.path, hR.sameDir, hR.own, hR.foreign⟩
  | storeWithMetadata metadata data =>
      obtain ⟨ok, hstore⟩ := exists_of_map_snd h
      by_cases hsize : SizeOk metadata data
      · simp only [ownsFile, if_pos hsize]
        exact filesKept_store hR hstore hsize
      · rw [storeChunkWithMetadata_of_not_sizeOk hsize] at hstore
        cases hstore
        simp only [ownsFile, if_neg hsize]
        exact hR
  | remove key =>
      cases h
      exact filesKept_remove key hR
  | get _ | promote _ | demote _ | evict | updateMetadata _ | openDisk => exact hop.elim

theorem filesKept_new {float : FloatArith} {config : CacheConfig} {clock : Nat → UInt64}
    (hpath : config.diskCachePath ≠ []) (hfs : fs.Faultless) :
    FilesKept id (new float config clock fs).chunksDir fs (new float config clock fs) false :=
  ⟨hfs, hpath, rfl, fun h => (nomatch h), fun _ _ => rfl⟩

/-! ## The reopened manager -/

theorem chunkFile_injective {a b : Bytes} (h : chunkFile a = chunkFile b) : a = b :=
  List.append_cancel_right h

theorem chunkFile_ne_of_not_fixed {id : Bytes} (h : sanitizeChunkFilename id ≠ id)
    (k : Bytes) : chunkFile id ≠ chunkFile (sanitizeChunkFilename k) := by
  intro heq
  apply h
  rw [chunkFile_injective heq]
  exact sanitizeChunkFilename_idem k

/-- After a run of stores and removals and a restart, a chunk that was stored
and kept is found exactly when its id is its own file name, or a file called
`id.chunk` was there before the run. -/
theorem hasChunk_restart_iff {H : Sha256} {float float' : FloatArith}
    {config config' : CacheConfig} {clock clock' : Nat → UInt64} {fs : FileSystem} {fuel : Nat}
    {ops : List Op} {id : Bytes} {s : ChunkManager}
    (hpath : config.diskCachePath ≠ []) (hfs : fs.Faultless)
    (hops : ∀ op ∈ ops, op.StoresOrRemoves)
    (hrun : run H fuel (new float config clock fs) ops = some s)
    (hkept : StoredAndKept id ops) (hsame : config'.diskCachePath = config.diskCachePath) :
    (new float' config' clock' s.fileSystem).initializeDiskCache.2.hasChunk id = true ↔
      sanitizeChunkFilename id = id ∨
        (id ≠ [] ∧
          (fs.read ⟨(new float config clock fs).chunksDir, chunkFile id⟩).isSome = true) := by
  have hR : FilesKept id (new float config clock fs).chunksDir fs s true := by
    rw [← hkept]
    refine runSteps_simulation ?_ (filesKept_new hpath hfs) (EveryStep.of_forall hops) hrun
    intro t owned op t' hR hop h
    exact filesKept_apply hR hop h
  have hdir : (new float' config' clock' s.fileSystem).chunksDir =
      (new float config clock fs).chunksDir := by
    simp [chunksDir, new, hsame]
  rw [hasChunk_initializeDiskCache (hsame.symm ▸ hpath), hdir]
  by_cases hfixed : sanitizeChunkFilename id = id
  · have hne : id ≠ [] := by
      rintro rfl
      revert hfixed
      decide
    have hown := hR.own rfl
    rw [loadFromDisk, if_neg (by simpa using hR.path), chunkPath_eq, hfixed, hR.sameDir] at hown
    exact ⟨fun _ => Or.inl hfixed, fun _ => ⟨hne, hown⟩⟩
  · rw [hR.foreign _ (chunkFile_ne_of_not_fixed hfixed)]
    simp [hfixed]

/-- A store under an id without special bytes survives the restart. -/
theorem hasChunk_restart_plain :
    ∃ s, run sampleSha256 0 sampleManager [.store (ascii "a_b") [2]] = some s ∧
      (new .ieee { memoryCacheSizeMb := 1, diskCachePath := ascii "/d" } (fun _ => 0)
        s.fileSystem).initializeDiskCache.2.hasChunk (ascii "a_b") = true := by
  have hsome : (run sampleSha256 0 sampleManager [.store (ascii "a_b") [2]]).isSome = true := by
    decide +kernel
  obtain ⟨s, hrun⟩ := Option.isSome_iff_exists.mp hsome
  refine ⟨s, hrun, ?_⟩
  exact (hasChunk_restart_iff (by decide) FileSystem.faultless_empty (by decide) hrun
    (by unfold StoredAndKept; decide) rfl).mpr (Or.inl (by decide))

/-- The id of chunk 0 of the object `bucket/key` contains a slash: its file is
indexed as `bucket_key_0` after a restart and no longer found. -/
theorem not_hasChunk_restart_slash :
    StoredAndKept (ascii "bucket/key_0") [.store (ascii "bucket/key_0") [1]] ∧
    ((run sampleSha256 0 sampleManager [.store (ascii "bucket/key_0") [1]]).map fun s =>
      (new .ieee { memoryCacheSizeMb := 1, diskCachePath := ascii "/d" } (fun _ => 0)
        s.fileSystem).initializeDiskCache.2.hasChunk (ascii "bucket/key_0")) = some false := by
  unfold StoredAndKept
  decide +kernel

end ChunkManager

end ElioP2P.Cache
