import ElioP2P.Cache.Proofs.Copies
import ElioP2P.Cache.Proofs.LRUInvariant

/-!
# Invariants of the two tiers

Every call keeps the representation invariant of the memory cache, and the
lemmas about the disk tier say what a call does to the index and to the file of
every chunk.
-/

namespace ElioP2P.Cache.ChunkManager

open ElioP2P.Library

/-! ## The memory invariant -/

theorem wellFormed_getChunk {fuel : Nat} {s s' : ChunkManager} {id : Bytes} {r : Option Chunk}
    (h : s.memoryCache.WellFormed) (hget : s.getChunk fuel id = some (r, s')) :
    s'.memoryCache.WellFormed := by
  have honce := LRUCache.wellFormed_get h id
  have htwice := LRUCache.wellFormed_get honce id
  rcases getChunk_cases hget with ⟨-, rfl⟩ | ⟨-, rfl⟩ | ⟨-, -, rfl⟩ |
    ⟨data, ok, memory, -, hput, -, rfl⟩
  · exact honce
  · exact htwice
  · exact htwice
  · exact LRUCache.wellFormed_get (LRUCache.wellFormed_put htwice hput) id

theorem wellFormed_store {fuel : Nat} {s s' : ChunkManager} {metadata : ChunkMetadata}
    {data : Bytes} {ok : Bool} (h : s.memoryCache.WellFormed)
    (hstore : s.storeChunkWithMetadata fuel metadata data = some (ok, s')) :
    s'.memoryCache.WellFormed := by
  by_cases hsize : SizeOk metadata data
  · exact LRUCache.wellFormed_put h (storeChunkWithMetadata_spec hstore hsize).2.1
  · rw [storeChunkWithMetadata_of_not_sizeOk hsize] at hstore
    cases hstore
    exact h

theorem wellFormed_storeChunk {H : Sha256} {fuel : Nat} {s s' : ChunkManager} {id data : Bytes}
    {ok : Bool} (h : s.memoryCache.WellFormed)
    (hstore : s.storeChunk H fuel id data = some (ok, s')) : s'.memoryCache.WellFormed := by
  rw [storeChunk_eq] at hstore
  refine wellFormed_store ?_ hstore
  exact LRUCache.wellFormed_ticks h _

theorem wellFormed_demoteToDisk {s : ChunkManager} (h : s.memoryCache.WellFormed) (id : Bytes) :
    (s.demoteToDisk id).2.memoryCache.WellFormed := by
  have hget := LRUCache.wellFormed_get h id
  unfold demoteToDisk
  simp only
  split
  · exact hget
  · split
    · simp only [memoryCache_persistToDisk]
      exact LRUCache.wellFormed_remove hget id
    · simp only [memoryCache_persistToDisk]
      exact hget

theorem wellFormed_apply {H : Sha256} {fuel : Nat} {s s' : ChunkManager} {op : Op}
    (h : s.memoryCache.WellFormed) (hop : s.apply H fuel op = some s') :
    s'.memoryCache.WellFormed := by
  cases op with
  | store id data =>
      obtain ⟨ok, hstore⟩ := exists_of_map_snd hop
      exact wellFormed_storeChunk h hstore
  | storeWithMetadata metadata data =>
      obtain ⟨ok, hstore⟩ := exists_of_map_snd hop
      exact wellFormed_store h hstore
  | get id =>
      obtain ⟨r, hget⟩ := exists_of_map_snd hop
      exact wellFormed_getChunk h hget
  | remove id =>
      cases hop
      rw [memoryCache_removeChunk]
      exact LRUCache.wellFormed_remove h id
  | promote id =>
      obtain ⟨ok, hpromote⟩ := exists_of_map_snd hop
      rcases promoteToMemory_cases hpromote with ⟨-, rfl⟩ | ⟨data, memory, -, hput, rfl⟩
      · exact h
      · exact LRUCache.wellFormed_put h hput
  | demote id =>
      cases hop
      exact wellFormed_demoteToDisk h id
  | evict =>
      obtain ⟨memory, hevict, rfl⟩ := triggerEviction_spec hop
      exact LRUCache.wellFormed_maybeEvict h hevict
  | updateMetadata metadata =>
      cases hop
      exact LRUCache.wellFormed_updateChunkMetadata h _ _ _
  | openDisk =>
      cases hop
      rw [(initializeDiskCache_tiers s).1]
      exact h

theorem wellFormed_run {H : Sha256} {fuel : Nat} {s s' : ChunkManager} {ops : List Op}
    (h : s.memoryCache.WellFormed) (hrun : run H fuel s ops = some s') :
    s'.memoryCache.WellFormed :=
  runSteps_invariant (fun _ _ _ h _ hop => wellFormed_apply h hop) h
    (EveryStep.of_forall fun _ _ => trivial) hrun

/-! ## The disk tier, one call at a time -/

theorem disk_getChunk {fuel : Nat} {s s' : ChunkManager} {key : Bytes} {r : Option Chunk}
    (h : s.getChunk fuel key = some (r, s')) :
    s'.diskIndex = s.diskIndex ∨
      (s.loadFromDisk key = none ∧ s'.diskIndex = s.diskIndex.erase key) := by
  rcases getChunk_cases h with ⟨-, rfl⟩ | ⟨-, rfl⟩ | ⟨-, hload, rfl⟩ |
    ⟨data, ok, memory, -, -, -, rfl⟩
  · exact Or.inl rfl
  · exact Or.inl rfl
  · exact Or.inr ⟨hload, rfl⟩
  · exact Or.inl rfl

theorem lookup_getChunk {fuel : Nat} {s s' : ChunkManager} {key : Bytes} {r : Option Chunk}
    (h : s.getChunk fuel key = some (r, s')) (id : Bytes) :
    s'.diskIndex.lookup id = s.diskIndex.lookup id ∨
      (s.loadFromDisk id = none ∧ s'.diskIndex.lookup id = none) := by
  rcases disk_getChunk h with hsame | ⟨hnone, herased⟩
  · rw [hsame]
    exact Or.inl rfl
  · rw [herased]
    by_cases hkey : id = key
    · rw [hkey]
      exact Or.inr ⟨hnone, AList.lookup_erase ..⟩
    · exact Or.inl (AList.lookup_erase_ne hkey)

theorem disk_promoteToMemory {fuel : Nat} {s s' : ChunkManager} {key : Bytes} {ok : Bool}
    (h : s.promoteToMemory fuel key = some (ok, s')) : s'.diskIndex = s.diskIndex := by
  rcases promoteToMemory_cases h with ⟨-, rfl⟩ | ⟨data, memory, -, -, rfl⟩
  · rfl
  · rfl

theorem disk_demoteToDisk_absent {s : ChunkManager} {key : Bytes}
    (h : s.memoryCache.dataOf key = none) :
    (s.demoteToDisk key).2.diskIndex = s.diskIndex ∧
      ∀ id, (s.demoteToDisk key).2.loadFromDisk id = s.loadFromDisk id := by
  unfold demoteToDisk
  simp only [LRUCache.get_of_dataOf_none h]
  exact ⟨trivial, fun _ => rfl⟩

theorem disk_demoteToDisk_present {s : ChunkManager} (hs : s.fileSystem.Faultless)
    (hpath : s.diskCachePath ≠ []) {key data : Bytes} (h : s.memoryCache.dataOf key = some data) :
    (s.demoteToDisk key).2.diskIndex = s.diskIndex.insert key data.length ∧
      ∀ id, (s.demoteToDisk key).2.loadFromDisk id =
        if SameFile id key then some data else s.loadFromDisk id := by
  have hdata := LRUCache.data_get s.memoryCache key
  rw [h] at hdata
  obtain ⟨chunk, hchunk, rfl⟩ := Option.map_eq_some_iff.mp hdata
  have hs' : { s with memoryCache := (s.memoryCache.get key).2 }.fileSystem.Faultless := hs
  have hpersist : ({ s with memoryCache := (s.memoryCache.get key).2 }.persistToDisk key
      chunk.data).1 = true := persistToDisk_succeeds hpath hs'
  unfold demoteToDisk
  simp only [hchunk, if_pos hpersist, diskIndex_persistToDisk]
  refine ⟨rfl, fun id => ?_⟩
  by_cases hfile : SameFile id key
  · rw [if_pos hfile]
    exact loadFromDisk_persistToDisk_same hs' hpath hfile
  · rw [if_neg hfile]
    exact loadFromDisk_persistToDisk_other hfile

theorem disk_removeChunk (s : ChunkManager) (key : Bytes) :
    (s.removeChunk key).2.diskIndex = s.diskIndex.erase key := by
  simp only [removeChunk, deleteFromDisk]
  split <;> rfl

theorem disk_store {fuel : Nat} {s s' : ChunkManager} {metadata : ChunkMetadata} {data : Bytes}
    {ok : Bool} (hs : s.fileSystem.Faultless) (hpath : s.diskCachePath ≠ [])
    (h : s.storeChunkWithMetadata fuel metadata data = some (ok, s'))
    (hsize : SizeOk metadata data) :
    s'.diskIndex = s.diskIndex.insert metadata.chunkId data.length ∧
      ∀ id, s'.loadFromDisk id =
        if SameFile id metadata.chunkId then some data else s.loadFromDisk id := by
  obtain ⟨-, -, -, hindex⟩ := storeChunkWithMetadata_spec h hsize
  rw [if_pos (persistToDisk_succeeds hpath hs)] at hindex
  refine ⟨hindex, fun id => ?_⟩
  rw [loadFromDisk_storeChunkWithMetadata h hsize]
  by_cases hfile : SameFile id metadata.chunkId
  · rw [if_pos hfile]
    exact loadFromDisk_persistToDisk_same hs hpath hfile
  · rw [if_neg hfile]
    exact loadFromDisk_persistToDisk_other hfile

theorem isSome_lookup_insert_of {m : AList fun _ : Bytes => Nat} {id key : Bytes} {n : Nat}
    (h : (m.lookup id).isSome = true) : ((m.insert key n).lookup id).isSome = true := by
  by_cases hk : id = key
  · subst hk
    simp
  · rwa [AList.lookup_insert_ne hk]

end ElioP2P.Cache.ChunkManager
