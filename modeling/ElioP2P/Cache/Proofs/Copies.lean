import ElioP2P.Cache.ChunkManager
import ElioP2P.Cache.Proofs.LRUContents

/-!
# Where the bytes of a chunk can come from

At any time the store holds at most two copies of a chunk: the one cached in
memory under its id and the contents of its file.  `Copy s id data` says that
`data` is one of them.  Every later read of `id` returns one of its copies, so
a statement about what can be read is a statement about how each operation
changes the copies.  The lemmas here say that, one operation at a time, for the
id the operation is called with, for ids that share its file, and for all
others.
-/

namespace ElioP2P.Cache.ChunkManager

open ElioP2P.Library

/-- Two chunk ids that are kept in the same file. -/
def SameFile (a b : Bytes) : Prop := sanitizeChunkFilename a = sanitizeChunkFilename b

instance (a b : Bytes) : Decidable (SameFile a b) :=
  inferInstanceAs (Decidable (_ = _))

def Copy (s : ChunkManager) (id data : Bytes) : Prop :=
  s.memoryCache.dataOf id = some data ∨ s.loadFromDisk id = some data

/-- What no operation changes: the disk path, the memory configuration and the
file system's fault script. -/
structure SameSetup (s s' : ChunkManager) : Prop where
  diskCachePath : s'.diskCachePath = s.diskCachePath
  config : s'.memoryCache.config = s.memoryCache.config
  outcome : s'.fileSystem.outcome = s.fileSystem.outcome

theorem SameSetup.refl (s : ChunkManager) : SameSetup s s := ⟨rfl, rfl, rfl⟩

theorem SameSetup.trans {s t u : ChunkManager} (hst : SameSetup s t) (htu : SameSetup t u) :
    SameSetup s u :=
  ⟨htu.1.trans hst.1, htu.2.trans hst.2, htu.3.trans hst.3⟩

theorem SameSetup.faultless {s s' : ChunkManager} (h : SameSetup s s')
    (hs : s.fileSystem.Faultless) : s'.fileSystem.Faultless := by
  intro n
  rw [h.outcome]
  exact hs n

theorem loadFromDisk_congr {s s' : ChunkManager} (hpath : s'.diskCachePath = s.diskCachePath)
    (hfs : s'.fileSystem = s.fileSystem) (id : Bytes) :
    s'.loadFromDisk id = s.loadFromDisk id := by
  simp [loadFromDisk, chunkPath, chunksDir, hpath, hfs]

theorem chunkPath_eq_iff (s : ChunkManager) (a b : Bytes) :
    s.chunkPath a = s.chunkPath b ↔ SameFile a b := by
  simp [chunkPath, SameFile]

theorem chunkPath_congr {s s' : ChunkManager} (h : s'.diskCachePath = s.diskCachePath)
    (id : Bytes) : s'.chunkPath id = s.chunkPath id := by
  simp [chunkPath, chunksDir, h]

theorem loadFromDisk_sameFile (s : ChunkManager) {a b : Bytes} (h : SameFile a b) :
    s.loadFromDisk a = s.loadFromDisk b := by
  unfold loadFromDisk
  rw [(chunkPath_eq_iff s a b).mpr h]

/-! ## Disk primitives -/

section Persist

variable (s : ChunkManager) (id data : Bytes)

theorem sameSetup_persistToDisk : SameSetup s (s.persistToDisk id data).2 := by
  unfold persistToDisk
  split
  · exact SameSetup.refl s
  · exact ⟨rfl, rfl, FileSystem.outcome_write _ _ _⟩

@[simp] theorem memoryCache_persistToDisk :
    (s.persistToDisk id data).2.memoryCache = s.memoryCache := by
  unfold persistToDisk
  split <;> rfl

@[simp] theorem diskIndex_persistToDisk :
    (s.persistToDisk id data).2.diskIndex = s.diskIndex := by
  unfold persistToDisk
  split <;> rfl

variable {s id data}

theorem persistToDisk_succeeds (hpath : s.diskCachePath ≠ []) (hs : s.fileSystem.Faultless) :
    (s.persistToDisk id data).1 = true := by
  simp [persistToDisk, hpath, hs.write_opens]

theorem loadFromDisk_persistToDisk_same (hs : s.fileSystem.Faultless)
    (hpath : s.diskCachePath ≠ []) {k : Bytes} (hk : SameFile k id) :
    (s.persistToDisk id data).2.loadFromDisk k = some data := by
  have hkpath : s.chunkPath k = s.chunkPath id := (chunkPath_eq_iff s k id).mpr hk
  have hsetup := (sameSetup_persistToDisk s id data).diskCachePath
  unfold loadFromDisk
  rw [chunkPath_congr hsetup, hkpath, hsetup, if_neg (by simpa using hpath)]
  unfold persistToDisk
  rw [if_neg (by simpa using hpath)]
  exact hs.read_write_same _ _

theorem loadFromDisk_persistToDisk_other {k : Bytes} (hk : ¬ SameFile k id) :
    (s.persistToDisk id data).2.loadFromDisk k = s.loadFromDisk k := by
  have hne : s.chunkPath k ≠ s.chunkPath id := fun h => hk ((chunkPath_eq_iff s k id).mp h)
  have hsetup := (sameSetup_persistToDisk s id data).diskCachePath
  unfold loadFromDisk
  rw [chunkPath_congr hsetup, hsetup]
  split
  · rfl
  · unfold persistToDisk
    rw [if_neg (by assumption)]
    exact FileSystem.read_write_other data hne

theorem loadFromDisk_of_no_path (h : s.diskCachePath = []) : s.loadFromDisk id = none := by
  simp [loadFromDisk, h]

/-- After a write, the file of any chunk holds either what was written to it or
what it held before. -/
theorem loadFromDisk_persistToDisk (hs : s.fileSystem.Faultless) {k d : Bytes}
    (h : (s.persistToDisk id data).2.loadFromDisk k = some d) :
    (SameFile k id ∧ d = data) ∨ (¬ SameFile k id ∧ s.loadFromDisk k = some d) := by
  have hsetup := (sameSetup_persistToDisk s id data).diskCachePath
  by_cases hpath : s.diskCachePath = []
  · rw [loadFromDisk_of_no_path (hsetup.trans hpath)] at h
    cases h
  · by_cases hk : SameFile k id
    · rw [loadFromDisk_persistToDisk_same hs hpath hk] at h
      exact Or.inl ⟨hk, (Option.some.inj h).symm⟩
    · rw [loadFromDisk_persistToDisk_other hk] at h
      exact Or.inr ⟨hk, h⟩

end Persist

/-! ## Reading -/

/-- What `get_chunk` can do: answer from memory at the first or the second look,
drop an index entry whose file is gone, or promote what the file holds. -/
theorem getChunk_cases {fuel : Nat} {s s' : ChunkManager} {id : Bytes} {r : Option Chunk}
    (h : s.getChunk fuel id = some (r, s')) :
    (r = (s.memoryCache.get id).1 ∧ s' = { s with memoryCache := (s.memoryCache.get id).2 }) ∨
    (r = ((s.memoryCache.get id).2.get id).1 ∧
      s' = { s with memoryCache := ((s.memoryCache.get id).2.get id).2 }) ∨
    (r = none ∧ s.loadFromDisk id = none ∧
      s' = { s with
        memoryCache := ((s.memoryCache.get id).2.get id).2
        diskIndex := s.diskIndex.erase id }) ∨
    ∃ data ok memory, s.loadFromDisk id = some data ∧
      ((s.memoryCache.get id).2.get id).2.put fuel id data = some (ok, memory) ∧
      r = (memory.get id).1 ∧ s' = { s with memoryCache := (memory.get id).2 } := by
  unfold getChunk at h
  simp only at h
  split at h
  · rename_i chunk hchunk
    cases h
    exact Or.inl ⟨hchunk.symm, rfl⟩
  · split at h
    · rename_i chunk hchunk
      cases h
      exact Or.inr (Or.inl ⟨hchunk.symm, rfl⟩)
    · rename_i hmissed
      split at h
      · cases h
        exact Or.inr (Or.inl ⟨hmissed.symm, rfl⟩)
      · split at h
        · rename_i hload
          cases h
          exact Or.inr (Or.inr (Or.inl ⟨rfl, hload, rfl⟩))
        · rename_i data hload
          simp only [Option.bind_eq_bind, Option.bind_eq_some_iff, Option.some.injEq,
            Prod.mk.injEq] at h
          obtain ⟨⟨ok, memory⟩, hput, rfl, rfl⟩ := h
          exact Or.inr (Or.inr (Or.inr ⟨data, ok, memory, hload, hput, rfl, rfl⟩))

/-- Everything `get_chunk` does to the tiers: it returns a copy, and promotes
at most that copy. -/
theorem getChunk_spec {fuel : Nat} {s s' : ChunkManager} {id : Bytes} {r : Option Chunk}
    (h : s.getChunk fuel id = some (r, s')) :
    (∀ c, r = some c → Copy s id c.data) ∧ SameSetup s s' ∧
      s'.fileSystem = s.fileSystem ∧
      ∀ k d, s'.memoryCache.dataOf k = some d →
        s.memoryCache.dataOf k = some d ∨ (k = id ∧ s.loadFromDisk id = some d) := by
  have hfast := LRUCache.data_get s.memoryCache id
  have hget1 := LRUCache.dataOf_get s.memoryCache id
  have hget2 := LRUCache.dataOf_get (s.memoryCache.get id).2 id
  have hcfg1 := LRUCache.config_get s.memoryCache id
  have hcfg2 := LRUCache.config_get (s.memoryCache.get id).2 id
  have hagain := LRUCache.data_get (s.memoryCache.get id).2 id
  rcases getChunk_cases h with ⟨rfl, rfl⟩ | ⟨rfl, rfl⟩ | ⟨rfl, -, rfl⟩ |
    ⟨data, ok, memory, hload, hput, rfl, rfl⟩
  · refine ⟨fun c hc => Or.inl ?_, ⟨rfl, hcfg1, rfl⟩, rfl, fun k d hd => Or.inl ?_⟩
    · rw [← hfast, hc, Option.map_some]
    · rwa [hget1] at hd
  · refine ⟨fun c hc => Or.inl ?_, ⟨rfl, hcfg2.trans hcfg1, rfl⟩, rfl, fun k d hd => Or.inl ?_⟩
    · rw [← hget1, ← hagain, hc, Option.map_some]
    · rwa [hget2, hget1] at hd
  · refine ⟨fun c hc => (nomatch hc), ⟨rfl, hcfg2.trans hcfg1, rfl⟩, rfl,
      fun k d hd => Or.inl ?_⟩
    rwa [hget2, hget1] at hd
  · have hread := LRUCache.data_get memory id
    have hkept := LRUCache.dataOf_get memory id
    have hsub : ∀ k d, memory.dataOf k = some d →
        s.memoryCache.dataOf k = some d ∨ (k = id ∧ s.loadFromDisk id = some d) := by
      intro k d hd
      rcases LRUCache.dataOf_put_subset hput hd with ⟨rfl, rfl⟩ | hold
      · exact Or.inr ⟨rfl, hload⟩
      · rw [hget2, hget1] at hold
        exact Or.inl hold
    refine ⟨fun c hc => ?_, ⟨rfl, ?_, rfl⟩, rfl, fun k d hd => ?_⟩
    · rw [hc, Option.map_some] at hread
      rcases hsub id c.data hread.symm with hmem | ⟨-, hdisk⟩
      · exact Or.inl hmem
      · exact Or.inr hdisk
    · rw [LRUCache.config_get, LRUCache.config_put hput, hcfg2, hcfg1]
    · rw [hkept] at hd
      exact hsub k d hd

theorem data_getChunk_of_memory {fuel : Nat} {s s' : ChunkManager} {id data : Bytes}
    {r : Option Chunk} (hmemory : s.memoryCache.dataOf id = some data)
    (h : s.getChunk fuel id = some (r, s')) : r.map Chunk.data = some data := by
  have hfound := LRUCache.data_get s.memoryCache id
  rw [hmemory] at hfound
  obtain ⟨chunk, hchunk, hdata⟩ := Option.map_eq_some_iff.mp hfound
  simp only [getChunk, hchunk, Option.some.injEq, Prod.mk.injEq] at h
  rw [← h.1, Option.map_some, hdata]

theorem copy_of_loaded {s s' : ChunkManager} {id : Bytes} (hsetup : SameSetup s s')
    (hfs : s'.fileSystem = s.fileSystem)
    (hmem : ∀ k d, s'.memoryCache.dataOf k = some d →
      s.memoryCache.dataOf k = some d ∨ (k = id ∧ s.loadFromDisk id = some d))
    {k d : Bytes} (hd : Copy s' k d) : Copy s k d := by
  rcases hd with hd | hd
  · rcases hmem k d hd with hold | ⟨rfl, hdisk⟩
    · exact Or.inl hold
    · exact Or.inr hdisk
  · rw [loadFromDisk_congr hsetup.diskCachePath hfs] at hd
    exact Or.inr hd

theorem copy_of_getChunk {fuel : Nat} {s s' : ChunkManager} {id : Bytes} {r : Option Chunk}
    (h : s.getChunk fuel id = some (r, s')) {k d : Bytes} (hd : Copy s' k d) :
    Copy s k d := by
  obtain ⟨-, hsetup, hfs, hmem⟩ := getChunk_spec h
  exact copy_of_loaded hsetup hfs hmem hd

/-! ## Storing -/

def SizeOk (metadata : ChunkMetadata) (data : Bytes) : Prop :=
  ¬ (0 < metadata.size ∧ data.length ≠ metadata.size)

instance (metadata : ChunkMetadata) (data : Bytes) : Decidable (SizeOk metadata data) :=
  inferInstanceAs (Decidable (¬ _))

theorem storeChunkWithMetadata_of_not_sizeOk {fuel : Nat} {s : ChunkManager}
    {metadata : ChunkMetadata} {data : Bytes} (h : ¬ SizeOk metadata data) :
    s.storeChunkWithMetadata fuel metadata data = some (false, s) := by
  unfold SizeOk at h
  rw [storeChunkWithMetadata, if_pos (not_not.mp h)]

/-- A store that passed its size check is a `put` into memory, a write to the
chunk's file and an index entry when the file could be opened. -/
theorem storeChunkWithMetadata_spec {fuel : Nat} {s s' : ChunkManager}
    {metadata : ChunkMetadata} {data : Bytes} {ok : Bool}
    (h : s.storeChunkWithMetadata fuel metadata data = some (ok, s'))
    (hsize : SizeOk metadata data) :
    SameSetup s s' ∧ s.memoryCache.put fuel metadata.chunkId data = some (ok, s'.memoryCache) ∧
      s'.fileSystem = (s.persistToDisk metadata.chunkId data).2.fileSystem ∧
      s'.diskIndex = if (s.persistToDisk metadata.chunkId data).1 = true then
          s.diskIndex.insert metadata.chunkId data.length else s.diskIndex := by
  unfold SizeOk at hsize
  rw [storeChunkWithMetadata, if_neg hsize] at h
  simp only [Option.bind_eq_bind, Option.bind_eq_some_iff, Option.some.injEq,
    Prod.mk.injEq] at h
  obtain ⟨⟨success, memory⟩, hput, rfl, hs'⟩ := h
  have hconfig := LRUCache.config_put hput
  have hwrite := FileSystem.outcome_write s.fileSystem (s.chunkPath metadata.chunkId) data
  subst hs'
  by_cases hpath : s.diskCachePath.isEmpty = true
  · simp only [persistToDisk, hpath, if_true, Bool.false_eq_true, if_false]
    exact ⟨⟨rfl, hconfig, rfl⟩, hput, trivial, trivial⟩
  · simp only [persistToDisk, hpath, Bool.false_eq_true, if_false]
    split
    · rename_i hopen
      exact ⟨⟨rfl, hconfig, hwrite⟩, hput, rfl, (if_pos hopen).symm⟩
    · rename_i hopen
      exact ⟨⟨rfl, hconfig, hwrite⟩, hput, rfl, (if_neg hopen).symm⟩

theorem loadFromDisk_storeChunkWithMetadata {fuel : Nat} {s s' : ChunkManager}
    {metadata : ChunkMetadata} {data : Bytes} {ok : Bool}
    (h : s.storeChunkWithMetadata fuel metadata data = some (ok, s'))
    (hsize : SizeOk metadata data) (k : Bytes) :
    s'.loadFromDisk k = (s.persistToDisk metadata.chunkId data).2.loadFromDisk k := by
  obtain ⟨hsetup, -, hfs, -⟩ := storeChunkWithMetadata_spec h hsize
  apply loadFromDisk_congr _ hfs
  rw [hsetup.diskCachePath, (sameSetup_persistToDisk s _ data).diskCachePath]

theorem copy_of_store {fuel : Nat} {s s' : ChunkManager} {metadata : ChunkMetadata}
    {data : Bytes} {ok : Bool} (hs : s.fileSystem.Faultless)
    (h : s.storeChunkWithMetadata fuel metadata data = some (ok, s'))
    {k d : Bytes} (hd : Copy s' k d) :
    (SameFile k metadata.chunkId ∧ d = data) ∨ Copy s k d := by
  by_cases hsize : SizeOk metadata data
  · obtain ⟨-, hput, -, -⟩ := storeChunkWithMetadata_spec h hsize
    rcases hd with hd | hd
    · rcases LRUCache.dataOf_put_subset hput hd with ⟨rfl, rfl⟩ | hold
      · exact Or.inl ⟨rfl, rfl⟩
      · exact Or.inr (Or.inl hold)
    · rw [loadFromDisk_storeChunkWithMetadata h hsize] at hd
      rcases loadFromDisk_persistToDisk hs hd with hnew | ⟨-, hold⟩
      · exact Or.inl hnew
      · exact Or.inr (Or.inr hold)
  · rw [storeChunkWithMetadata_of_not_sizeOk hsize] at h
    cases h
    exact Or.inr hd

/-- A store replaces every copy of its own chunk, unless memory refuses the new
data while it still holds an older copy. -/
theorem copy_of_store_same {fuel : Nat} {s s' : ChunkManager} {metadata : ChunkMetadata}
    {data : Bytes} {ok : Bool} (hs : s.fileSystem.Faultless)
    (h : s.storeChunkWithMetadata fuel metadata data = some (ok, s'))
    (hsize : SizeOk metadata data)
    (hfit : data.length ≤ s.memoryCache.config.maxCapacity ∨
      s.memoryCache.dataOf metadata.chunkId = none)
    {d : Bytes} (hd : Copy s' metadata.chunkId d) : d = data := by
  obtain ⟨-, hput, -, -⟩ := storeChunkWithMetadata_spec h hsize
  rcases hd with hd | hd
  · rcases hfit with hfit | hnone
    · rcases LRUCache.dataOf_put hput hfit hd with ⟨-, rfl⟩ | ⟨hne, -⟩
      · rfl
      · exact absurd rfl hne
    · rcases LRUCache.dataOf_put_subset hput hd with ⟨-, rfl⟩ | hold
      · rfl
      · rw [hnone] at hold
        cases hold
  · rw [loadFromDisk_storeChunkWithMetadata h hsize] at hd
    rcases loadFromDisk_persistToDisk hs hd with ⟨-, rfl⟩ | ⟨hne, -⟩
    · rfl
    · exact absurd rfl hne

theorem storeChunk_eq (H : Sha256) (fuel : Nat) (s : ChunkManager) (id data : Bytes) :
    s.storeChunk H fuel id data =
      { s with memoryCache := s.memoryCache.currentTime.2 }.storeChunkWithMetadata fuel
        (freshMetadata H s.memoryCache.currentTime.1 id data) data := rfl

theorem sizeOk_freshMetadata (H : Sha256) (now : UInt64) (id data : Bytes) :
    SizeOk (freshMetadata H now id data) data := by
  simp [SizeOk, freshMetadata]

/-! ## The other operations -/

theorem loadFromDisk_deleteFromDisk_same (s : ChunkManager) (id : Bytes) :
    (s.deleteFromDisk id).loadFromDisk id = none := by
  unfold deleteFromDisk
  split
  · rename_i hpath
    simp [loadFromDisk, hpath]
  · simp [loadFromDisk, chunkPath, chunksDir]

theorem loadFromDisk_deleteFromDisk_other (s : ChunkManager) {id k : Bytes}
    (hk : ¬ SameFile k id) : (s.deleteFromDisk id).loadFromDisk k = s.loadFromDisk k := by
  have hne : s.chunkPath k ≠ s.chunkPath id := fun heq => hk ((chunkPath_eq_iff s k id).mp heq)
  unfold deleteFromDisk
  split
  · rfl
  · change (if s.diskCachePath.isEmpty then none
      else (s.fileSystem.remove (s.chunkPath id)).read (s.chunkPath k)) = s.loadFromDisk k
    rw [FileSystem.read_remove_other hne, loadFromDisk]

theorem loadFromDisk_deleteFromDisk {s : ChunkManager} {id k d : Bytes}
    (h : (s.deleteFromDisk id).loadFromDisk k = some d) : s.loadFromDisk k = some d := by
  by_cases hk : SameFile k id
  · rw [loadFromDisk_sameFile _ hk, loadFromDisk_deleteFromDisk_same] at h
    cases h
  · rwa [loadFromDisk_deleteFromDisk_other s hk] at h

theorem memoryCache_removeChunk (s : ChunkManager) (id : Bytes) :
    (s.removeChunk id).2.memoryCache = (s.memoryCache.remove id).2 := by
  simp only [removeChunk, deleteFromDisk]
  split <;> rfl

theorem loadFromDisk_removeChunk (s : ChunkManager) (id k : Bytes) :
    (s.removeChunk id).2.loadFromDisk k = (s.deleteFromDisk id).loadFromDisk k := by
  apply loadFromDisk_congr <;> simp only [removeChunk, deleteFromDisk] <;> split <;> rfl

theorem copy_of_removeChunk {s : ChunkManager} {id k d : Bytes}
    (hd : Copy (s.removeChunk id).2 k d) : Copy s k d ∧ k ≠ id := by
  rcases hd with hd | hd
  · rw [memoryCache_removeChunk] at hd
    refine ⟨Or.inl ((LRUCache.shrinks_remove _ id).2 k d hd), ?_⟩
    rintro rfl
    simp [LRUCache.dataOf_remove_same] at hd
  · rw [loadFromDisk_removeChunk] at hd
    refine ⟨Or.inr (loadFromDisk_deleteFromDisk hd), ?_⟩
    rintro rfl
    rw [loadFromDisk_deleteFromDisk_same] at hd
    cases hd

theorem promoteToMemory_cases {fuel : Nat} {s s' : ChunkManager} {id : Bytes} {ok : Bool}
    (h : s.promoteToMemory fuel id = some (ok, s')) :
    (s.loadFromDisk id = none ∧ s' = s) ∨
    ∃ data memory, s.loadFromDisk id = some data ∧
      s.memoryCache.put fuel id data = some (ok, memory) ∧
      s' = { s with memoryCache := memory } := by
  unfold promoteToMemory at h
  split at h
  · rename_i hload
    cases h
    exact Or.inl ⟨hload, rfl⟩
  · rename_i data hload
    simp only [Option.bind_eq_bind, Option.bind_eq_some_iff, Option.some.injEq,
      Prod.mk.injEq] at h
    obtain ⟨⟨success, memory⟩, hput, rfl, rfl⟩ := h
    exact Or.inr ⟨data, memory, hload, hput, rfl⟩

theorem promoteToMemory_spec {fuel : Nat} {s s' : ChunkManager} {id : Bytes} {ok : Bool}
    (h : s.promoteToMemory fuel id = some (ok, s')) :
    SameSetup s s' ∧ s'.fileSystem = s.fileSystem ∧
      ∀ k d, s'.memoryCache.dataOf k = some d →
        s.memoryCache.dataOf k = some d ∨ (k = id ∧ s.loadFromDisk id = some d) := by
  rcases promoteToMemory_cases h with ⟨-, rfl⟩ | ⟨data, memory, hload, hput, rfl⟩
  · exact ⟨SameSetup.refl s', rfl, fun k d hd => Or.inl hd⟩
  · refine ⟨⟨rfl, LRUCache.config_put hput, rfl⟩, rfl, fun k d hd => ?_⟩
    rcases LRUCache.dataOf_put_subset hput hd with ⟨rfl, rfl⟩ | hold
    · exact Or.inr ⟨rfl, hload⟩
    · exact Or.inl hold

theorem copy_of_promoteToMemory {fuel : Nat} {s s' : ChunkManager} {id : Bytes} {ok : Bool}
    (h : s.promoteToMemory fuel id = some (ok, s')) {k d : Bytes} (hd : Copy s' k d) :
    Copy s k d := by
  obtain ⟨hsetup, hfs, hmem⟩ := promoteToMemory_spec h
  exact copy_of_loaded hsetup hfs hmem hd

/-- Demotion writes the memory copy of `id` to its file, so it can only change
the copies of chunks in that file. -/
theorem copy_of_demoteToDisk {s : ChunkManager} (hs : s.fileSystem.Faultless)
    {id k d : Bytes} (hd : Copy (s.demoteToDisk id).2 k d) :
    Copy s k d ∨ (SameFile k id ∧ s.memoryCache.dataOf id = some d) := by
  have hget := LRUCache.dataOf_get s.memoryCache id
  have hread := LRUCache.data_get s.memoryCache id
  unfold demoteToDisk at hd
  simp only at hd
  split at hd
  · rcases hd with hd | hd
    · rw [hget] at hd
      exact Or.inl (Or.inl hd)
    · exact Or.inl (Or.inr hd)
  · rename_i chunk hchunk
    rw [hchunk, Option.map_some] at hread
    -- Only the file of `id` is written, and memory only loses entries.
    have hdisk : ({ s with memoryCache := (s.memoryCache.get id).2 }.persistToDisk id
        chunk.data).2.loadFromDisk k = some d →
          Copy s k d ∨ (SameFile k id ∧ s.memoryCache.dataOf id = some d) := by
      intro hd
      have hs' : { s with memoryCache := (s.memoryCache.get id).2 }.fileSystem.Faultless := hs
      rcases loadFromDisk_persistToDisk hs' hd with ⟨hfile, rfl⟩ | ⟨-, hold⟩
      · exact Or.inr ⟨hfile, hread.symm⟩
      · exact Or.inl (Or.inr hold)
    split at hd
    · rcases hd with hd | hd
      · simp only [memoryCache_persistToDisk] at hd
        have hold := (LRUCache.shrinks_remove _ id).2 k d hd
        rw [hget] at hold
        exact Or.inl (Or.inl hold)
      · exact hdisk hd
    · rcases hd with hd | hd
      · simp only [memoryCache_persistToDisk] at hd
        rw [hget] at hd
        exact Or.inl (Or.inl hd)
      · exact hdisk hd

theorem triggerEviction_spec {fuel : Nat} {s s' : ChunkManager}
    (h : s.triggerEviction fuel = some s') :
    ∃ memory, s.memoryCache.maybeEvict fuel = some memory ∧
      s' = { s with memoryCache := memory } := by
  simp only [triggerEviction, Option.bind_eq_bind, Option.bind_eq_some_iff,
    Option.some.injEq] at h
  obtain ⟨memory, hevict, rfl⟩ := h
  exact ⟨memory, hevict, rfl⟩

theorem copy_of_triggerEviction {fuel : Nat} {s s' : ChunkManager}
    (h : s.triggerEviction fuel = some s') {k d : Bytes} (hd : Copy s' k d) : Copy s k d := by
  obtain ⟨memory, hevict, rfl⟩ := triggerEviction_spec h
  rcases hd with hd | hd
  · exact Or.inl ((LRUCache.shrinks_maybeEvict hevict).2 k d hd)
  · exact Or.inr hd

theorem copy_of_updateMetadata {s : ChunkManager} {metadata : ChunkMetadata} {k d : Bytes}
    (hd : Copy (s.updateMetadata metadata) k d) : Copy s k d := by
  rcases hd with hd | hd
  · left
    rwa [updateMetadata, LRUCache.dataOf_updateChunkMetadata] at hd
  · exact Or.inr hd

theorem initializeDiskCache_tiers (s : ChunkManager) :
    s.initializeDiskCache.2.memoryCache = s.memoryCache ∧
      s.initializeDiskCache.2.fileSystem = s.fileSystem ∧
        s.initializeDiskCache.2.diskCachePath = s.diskCachePath := by
  unfold initializeDiskCache
  split <;> exact ⟨rfl, rfl, rfl⟩

theorem copy_of_initializeDiskCache {s : ChunkManager} {k d : Bytes}
    (hd : Copy s.initializeDiskCache.2 k d) : Copy s k d := by
  obtain ⟨hmemory, hfs, hpath⟩ := initializeDiskCache_tiers s
  rcases hd with hd | hd
  · rw [hmemory] at hd
    exact Or.inl hd
  · rw [loadFromDisk_congr hpath hfs] at hd
    exact Or.inr hd

/-! ## Runs -/

theorem sameSetup_removeChunk (s : ChunkManager) (id : Bytes) :
    SameSetup s (s.removeChunk id).2 := by
  unfold removeChunk deleteFromDisk
  simp only
  split
  · exact ⟨rfl, LRUCache.config_remove _ _, rfl⟩
  · exact ⟨rfl, LRUCache.config_remove _ _, FileSystem.outcome_remove _ _⟩

theorem sameSetup_demoteToDisk (s : ChunkManager) (id : Bytes) :
    SameSetup s (s.demoteToDisk id).2 := by
  have hconfig := LRUCache.config_get s.memoryCache id
  unfold demoteToDisk
  simp only
  split
  · exact ⟨rfl, hconfig, rfl⟩
  · rename_i chunk hchunk
    have hpersist := sameSetup_persistToDisk
      { s with memoryCache := (s.memoryCache.get id).2 } id chunk.data
    split
    · refine ⟨hpersist.diskCachePath, ?_, hpersist.outcome⟩
      rw [LRUCache.config_remove, memoryCache_persistToDisk]
      exact hconfig
    · exact ⟨hpersist.diskCachePath, hpersist.config.trans hconfig, hpersist.outcome⟩

theorem sameSetup_apply {H : Sha256} {fuel : Nat} {s s' : ChunkManager} {op : Op}
    (h : s.apply H fuel op = some s') : SameSetup s s' := by
  have hstore : ∀ {t : ChunkManager} {metadata data r}, SameSetup s t →
      t.storeChunkWithMetadata fuel metadata data = some r → SameSetup s r.2 := by
    intro t metadata data r ht hr
    by_cases hsize : SizeOk metadata data
    · exact ht.trans (storeChunkWithMetadata_spec hr hsize).1
    · rw [storeChunkWithMetadata_of_not_sizeOk hsize] at hr
      cases hr
      exact ht
  cases op with
  | store id data =>
      obtain ⟨value, hr⟩ := exists_of_map_snd h
      rw [storeChunk_eq] at hr
      refine hstore ?_ hr
      exact ⟨rfl, rfl, rfl⟩
  | storeWithMetadata metadata data =>
      obtain ⟨value, hr⟩ := exists_of_map_snd h
      exact hstore (SameSetup.refl s) hr
  | get id =>
      obtain ⟨value, hr⟩ := exists_of_map_snd h
      exact (getChunk_spec hr).2.1
  | remove id =>
      cases h
      exact sameSetup_removeChunk s id
  | promote id =>
      obtain ⟨value, hr⟩ := exists_of_map_snd h
      exact (promoteToMemory_spec hr).1
  | demote id =>
      cases h
      exact sameSetup_demoteToDisk s id
  | evict =>
      obtain ⟨memory, hevict, rfl⟩ := triggerEviction_spec h
      exact ⟨rfl, (LRUCache.shrinks_maybeEvict hevict).1, rfl⟩
  | updateMetadata metadata =>
      cases h
      exact ⟨rfl, LRUCache.config_updateChunkMetadata _ _ _ _, rfl⟩
  | openDisk =>
      cases h
      obtain ⟨hmemory, hfs, hpath⟩ := initializeDiskCache_tiers s
      exact ⟨hpath, by rw [hmemory], by rw [hfs]⟩

end ElioP2P.Cache.ChunkManager
