import ElioP2P.Cache.Proofs.DiskTier
import ElioP2P.Cache.Proofs.LRURetention
import ElioP2P.Cache.Proofs.Restart

/-!
# When a stored chunk can be read again

A chunk that memory no longer holds is read from its file by promoting it
through the memory cache, and what the cache does not keep is not returned.  So
a stored chunk is found again as long as its file and its index entry stay in
place and a promotion would keep it.
-/

namespace ElioP2P.Cache.ChunkManager

open ElioP2P.Library

/-! ## Reading one chunk -/

/-- The promotion that reading `id` from disk would make keeps it. -/
def Promotable (s : ChunkManager) (id : Bytes) (size : Nat) : Prop :=
  s.memoryCache.dataOf id = none → s.memoryCache.Retainable size

theorem getChunk_of_memory {s : ChunkManager} {id data : Bytes}
    (h : s.memoryCache.dataOf id = some data) :
    ∃ chunk s', s.getChunk 0 id = some (some chunk, s') := by
  have hdata := LRUCache.data_get s.memoryCache id
  rw [h] at hdata
  obtain ⟨chunk, hchunk, -⟩ := Option.map_eq_some_iff.mp hdata
  refine ⟨chunk, { s with memoryCache := (s.memoryCache.get id).2 }, ?_⟩
  unfold getChunk
  simp only [hchunk]

def afterMisses (m : LRUCache) : LRUCache :=
  { m with stats := { m.stats with misses := m.stats.misses + 1 + 1 } }

theorem getChunk_eq_promote {s : ChunkManager} {id data : Bytes} (fuel : Nat)
    (hmemory : s.memoryCache.dataOf id = none)
    (hindex : (s.diskIndex.lookup id).isSome = true) (hload : s.loadFromDisk id = some data) :
    s.getChunk fuel id = ((afterMisses s.memoryCache).put fuel id data).map fun r =>
      ((r.2.get id).1, { s with memoryCache := (r.2.get id).2 }) := by
  have hagain : { s.memoryCache with
      stats := { s.memoryCache.stats with misses := s.memoryCache.stats.misses + 1 } }.dataOf id =
        none := hmemory
  have hloaded : ∀ m, { s with memoryCache := m }.loadFromDisk id = some data := fun _ => hload
  unfold getChunk
  simp only [LRUCache.get_of_dataOf_none hmemory, LRUCache.get_of_dataOf_none hagain]
  rw [if_neg (by simp [Option.isNone_iff_eq_none, Option.isSome_iff_ne_none.mp hindex])]
  simp only [hloaded]
  change ((afterMisses s.memoryCache).put fuel id data).bind _ = _
  cases (afterMisses s.memoryCache).put fuel id data <;> rfl

theorem getChunk_of_disk {s : ChunkManager} {id data : Bytes} (hwf : s.memoryCache.WellFormed)
    (hid : id ≠ []) (hmemory : s.memoryCache.dataOf id = none)
    (hindex : (s.diskIndex.lookup id).isSome = true) (hload : s.loadFromDisk id = some data)
    (hretain : s.memoryCache.Retainable data.length) :
    ∃ fuel chunk s', s.getChunk fuel id = some (some chunk, s') := by
  have hwf' : (afterMisses s.memoryCache).WellFormed :=
    ⟨hwf.keysNodup, hwf.nodesNodup, hwf.nodesOld, hwf.linked, hwf.cached, hwf.size⟩
  have hnone : (afterMisses s.memoryCache).cache.lookup id = none := by
    simpa [LRUCache.dataOf, afterMisses] using hmemory
  obtain ⟨fuel, kept, hput, hkept⟩ := LRUCache.put_retains hwf' hid hnone hretain
  have hdata := LRUCache.data_get kept id
  rw [hkept] at hdata
  obtain ⟨chunk, hchunk, -⟩ := Option.map_eq_some_iff.mp hdata
  refine ⟨fuel, chunk, { s with memoryCache := (kept.get id).2 }, ?_⟩
  rw [getChunk_eq_promote fuel hmemory hindex hload, hput, Option.map_some, hchunk]

/-! ## A stored chunk stays readable -/

def Op.SparesFile (id : Bytes) : Op → Prop
  | .store key _ | .remove key => ¬ SameFile id key
  | .storeWithMetadata metadata _ => ¬ SameFile id metadata.chunkId
  | .get _ | .promote _ | .demote _ | .evict | .updateMetadata _ | .openDisk => True

/-- The call does not demote another chunk to the file of `id`, nor rebuild the
index when that would lose `id`. -/
def KeepsStored (id : Bytes) (s : ChunkManager) : Op → Prop
  | .demote key => key ≠ id → SameFile id key → s.memoryCache.dataOf key = none
  | .openDisk => sanitizeChunkFilename id = id
  | .store _ _ | .remove _ | .storeWithMetadata _ _ | .get _ | .promote _ | .evict
  | .updateMetadata _ => True

structure Held (id data : Bytes) (s : ChunkManager) : Prop where
  faultless : s.fileSystem.Faultless
  path : s.diskCachePath ≠ []
  copies : ∀ d, Copy s id d → d = data
  file : s.loadFromDisk id = some data
  indexed : (s.diskIndex.lookup id).isSome = true

theorem held_store {fuel : Nat} {s s' : ChunkManager} {id data : Bytes} {ok : Bool} {H : Sha256}
    (hs : s.fileSystem.Faultless) (hpath : s.diskCachePath ≠ [])
    (hreplaces : data.length ≤ s.memoryCache.config.maxCapacity ∨ s.memoryCache.dataOf id = none)
    (h : s.storeChunk H fuel id data = some (ok, s')) : Held id data s' := by
  rw [storeChunk_eq] at h
  have hsize := sizeOk_freshMetadata H s.memoryCache.currentTime.1 id data
  have hsetup := (storeChunkWithMetadata_spec h hsize).1
  have hs' : { s with memoryCache := s.memoryCache.currentTime.2 }.fileSystem.Faultless := hs
  obtain ⟨hindex, hload⟩ := disk_store hs' hpath h hsize
  refine ⟨hsetup.faultless hs', ?_, fun d hd => ?_, ?_, ?_⟩
  · rw [hsetup.diskCachePath]
    exact hpath
  · exact copy_of_store_same hs' h hsize hreplaces hd
  · rw [hload]
    exact if_pos rfl
  · rw [hindex]
    change ((s.diskIndex.insert id data.length).lookup id).isSome = true
    simp

theorem read_chunkFile_of_fixed {s : ChunkManager} {id : Bytes} (hpath : s.diskCachePath ≠ [])
    (hfixed : sanitizeChunkFilename id = id) :
    s.fileSystem.read ⟨s.chunksDir, chunkFile id⟩ = s.loadFromDisk id := by
  rw [loadFromDisk, if_neg (by simpa using hpath), chunkPath_eq, hfixed]

theorem ne_nil_of_fixed {id : Bytes} (h : sanitizeChunkFilename id = id) : id ≠ [] := by
  rintro rfl
  revert h
  decide

theorem held_store_other {fuel : Nat} {s s' : ChunkManager} {id data d : Bytes}
    {metadata : ChunkMetadata} {ok : Bool} (h : Held id data s)
    (hfile : ¬ SameFile id metadata.chunkId)
    (hstore : s.storeChunkWithMetadata fuel metadata d = some (ok, s')) : Held id data s' := by
  by_cases hsize : SizeOk metadata d
  · have hsetup := (storeChunkWithMetadata_spec hstore hsize).1
    obtain ⟨hindex, hload⟩ := disk_store h.faultless h.path hstore hsize
    refine ⟨hsetup.faultless h.faultless, ?_, fun d' hd' => ?_, ?_, ?_⟩
    · rw [hsetup.diskCachePath]
      exact h.path
    · rcases copy_of_store h.faultless hstore hd' with ⟨hsame, -⟩ | hold
      · exact absurd hsame hfile
      · exact h.copies d' hold
    · rw [hload, if_neg hfile]
      exact h.file
    · rw [hindex]
      exact isSome_lookup_insert_of h.indexed
  · rw [storeChunkWithMetadata_of_not_sizeOk hsize] at hstore
    cases hstore
    exact h

/-- Demoting `id` itself writes its data again; demoting another chunk leaves
its file alone, or finds nothing to demote. -/
theorem held_demoteToDisk {s : ChunkManager} {id data key : Bytes} (h : Held id data s)
    (hkeeps : KeepsStored id s (.demote key)) : Held id data (s.demoteToDisk key).2 := by
  have hsetup := sameSetup_demoteToDisk s key
  have hpath : (s.demoteToDisk key).2.diskCachePath ≠ [] := by
    rw [hsetup.diskCachePath]
    exact h.path
  have hown : ∀ d, SameFile id key → s.memoryCache.dataOf key = some d → d = data := by
    intro d hfile hmemory
    by_cases hkey : key = id
    · subst hkey
      exact h.copies d (Or.inl hmemory)
    · rw [hkeeps hkey hfile] at hmemory
      cases hmemory
  have hcopies : ∀ d, Copy (s.demoteToDisk key).2 id d → d = data := by
    intro d hd
    rcases copy_of_demoteToDisk h.faultless hd with hold | ⟨hfile, hmemory⟩
    · exact h.copies d hold
    · exact hown d hfile hmemory
  cases hmemory : s.memoryCache.dataOf key with
  | none =>
      obtain ⟨hindex, hload⟩ := disk_demoteToDisk_absent hmemory
      refine ⟨hsetup.faultless h.faultless, hpath, hcopies, (hload id).trans h.file, ?_⟩
      rw [hindex]
      exact h.indexed
  | some d =>
      obtain ⟨hindex, hload⟩ := disk_demoteToDisk_present h.faultless h.path hmemory
      refine ⟨hsetup.faultless h.faultless, hpath, hcopies, ?_, ?_⟩
      · rw [hload]
        split
        · rename_i hfile
          rw [hown d hfile hmemory]
        · exact h.file
      · rw [hindex]
        exact isSome_lookup_insert_of h.indexed

theorem held_apply {H : Sha256} {fuel : Nat} {s s' : ChunkManager} {id data : Bytes} {op : Op}
    (h : Held id data s) (hspares : op.SparesFile id) (hkeeps : KeepsStored id s op)
    (hop : s.apply H fuel op = some s') : Held id data s' := by
  have hsetup := sameSetup_apply hop
  have hs := hsetup.faultless h.faultless
  have hpath : s'.diskCachePath ≠ [] := by
    rw [hsetup.diskCachePath]
    exact h.path
  cases op with
  | store key d =>
      obtain ⟨ok, hstore⟩ := exists_of_map_snd hop
      rw [storeChunk_eq] at hstore
      refine held_store_other ?_ ?_ hstore
      · exact ⟨h.faultless, h.path, h.copies, h.file, h.indexed⟩
      · exact hspares
  | storeWithMetadata metadata d =>
      obtain ⟨ok, hstore⟩ := exists_of_map_snd hop
      exact held_store_other h hspares hstore
  | get key =>
      obtain ⟨r, hget⟩ := exists_of_map_snd hop
      have hfile := loadFromDisk_congr hsetup.diskCachePath (getChunk_spec hget).2.2.1 id
      refine ⟨hs, hpath, fun d hd => h.copies d (copy_of_getChunk hget hd), hfile.trans h.file, ?_⟩
      rcases lookup_getChunk hget id with hsame | ⟨hnone, -⟩
      · rw [hsame]
        exact h.indexed
      · rw [h.file] at hnone
        cases hnone
  | remove key =>
      cases hop
      refine ⟨hs, hpath, fun d hd => h.copies d (copy_of_removeChunk hd).1, ?_, ?_⟩
      · rw [loadFromDisk_removeChunk, loadFromDisk_deleteFromDisk_other s hspares]
        exact h.file
      · have hkey : id ≠ key := by
          rintro rfl
          exact hspares rfl
        rw [disk_removeChunk, AList.lookup_erase_ne hkey]
        exact h.indexed
  | promote key =>
      obtain ⟨ok, hpromote⟩ := exists_of_map_snd hop
      have hfile := loadFromDisk_congr hsetup.diskCachePath (promoteToMemory_spec hpromote).2.1 id
      refine ⟨hs, hpath, fun d hd => h.copies d (copy_of_promoteToMemory hpromote hd),
        hfile.trans h.file, ?_⟩
      rw [disk_promoteToMemory hpromote]
      exact h.indexed
  | demote key =>
      cases hop
      exact held_demoteToDisk h hkeeps
  | evict =>
      have hcopies := fun d hd => h.copies d (copy_of_triggerEviction hop hd)
      obtain ⟨memory, -, rfl⟩ := triggerEviction_spec hop
      exact ⟨hs, hpath, hcopies, h.file, h.indexed⟩
  | updateMetadata metadata =>
      cases hop
      exact ⟨hs, hpath, fun d hd => h.copies d (copy_of_updateMetadata hd), h.file, h.indexed⟩
  | openDisk =>
      cases hop
      obtain ⟨-, hfs, hsame⟩ := initializeDiskCache_tiers s
      refine ⟨hs, hpath, fun d hd => h.copies d (copy_of_initializeDiskCache hd),
        (loadFromDisk_congr hsame hfs id).trans h.file, ?_⟩
      rw [isSome_lookup_initializeDiskCache h.path, read_chunkFile_of_fixed h.path hkeeps, h.file]
      exact ⟨ne_nil_of_fixed hkeeps, rfl⟩

/-! ## An indexed chunk has a file -/

/-- The call does not take the file away under an index entry for `id`: it does
not remove another chunk in the same file, and it does not index a file that
`id` would not be read from. -/
def KeepsIndexed (id : Bytes) (s : ChunkManager) : Op → Prop
  | .remove key => key ≠ id → SameFile id key → s.diskIndex.lookup id = none
  | .openDisk =>
      sanitizeChunkFilename id = id ∨ s.fileSystem.read ⟨s.chunksDir, chunkFile id⟩ = none
  | .store _ _ | .storeWithMetadata _ _ | .get _ | .promote _ | .demote _ | .evict
  | .updateMetadata _ => True

structure IndexSound (id : Bytes) (s : ChunkManager) : Prop where
  faultless : s.fileSystem.Faultless
  path : s.diskCachePath ≠ []
  sound : (s.diskIndex.lookup id).isSome = true → (s.loadFromDisk id).isSome = true

theorem sound_of_insert {s s' : ChunkManager} {id key data : Bytes} (h : IndexSound id s)
    (hindex : s'.diskIndex = s.diskIndex.insert key data.length)
    (hload : s'.loadFromDisk id = if SameFile id key then some data else s.loadFromDisk id) :
    (s'.diskIndex.lookup id).isSome = true → (s'.loadFromDisk id).isSome = true := by
  intro hindexed
  rw [hload]
  split
  · rfl
  · rename_i hfile
    have hkey : id ≠ key := by
      rintro rfl
      exact hfile rfl
    rw [hindex, AList.lookup_insert_ne hkey] at hindexed
    exact h.sound hindexed

theorem indexSound_store {fuel : Nat} {s s' : ChunkManager} {id data : Bytes}
    {metadata : ChunkMetadata} {ok : Bool} (h : IndexSound id s)
    (hstore : s.storeChunkWithMetadata fuel metadata data = some (ok, s')) :
    (s'.diskIndex.lookup id).isSome = true → (s'.loadFromDisk id).isSome = true := by
  by_cases hsize : SizeOk metadata data
  · obtain ⟨hindex, hload⟩ := disk_store h.faultless h.path hstore hsize
    exact sound_of_insert h hindex (hload id)
  · rw [storeChunkWithMetadata_of_not_sizeOk hsize] at hstore
    cases hstore
    exact h.sound

theorem indexSound_removeChunk {s : ChunkManager} {id key : Bytes} (h : IndexSound id s)
    (hkeeps : KeepsIndexed id s (.remove key)) :
    ((s.removeChunk key).2.diskIndex.lookup id).isSome = true →
      ((s.removeChunk key).2.loadFromDisk id).isSome = true := by
  intro hindexed
  rw [disk_removeChunk] at hindexed
  by_cases hkey : key = id
  · subst hkey
    simp at hindexed
  · rw [AList.lookup_erase_ne (Ne.symm hkey)] at hindexed
    have hfile : ¬ SameFile id key := by
      intro hsame
      rw [hkeeps hkey hsame] at hindexed
      cases hindexed
    rw [loadFromDisk_removeChunk, loadFromDisk_deleteFromDisk_other s hfile]
    exact h.sound hindexed

theorem indexSound_apply {H : Sha256} {fuel : Nat} {s s' : ChunkManager} {id : Bytes} {op : Op}
    (h : IndexSound id s) (hkeeps : KeepsIndexed id s op) (hop : s.apply H fuel op = some s') :
    IndexSound id s' := by
  have hsetup := sameSetup_apply hop
  refine ⟨hsetup.faultless h.faultless, ?_, ?_⟩
  · rw [hsetup.diskCachePath]
    exact h.path
  cases op with
  | store key data =>
      obtain ⟨ok, hstore⟩ := exists_of_map_snd hop
      rw [storeChunk_eq] at hstore
      refine indexSound_store ?_ hstore
      exact ⟨h.faultless, h.path, h.sound⟩
  | storeWithMetadata metadata data =>
      obtain ⟨ok, hstore⟩ := exists_of_map_snd hop
      exact indexSound_store h hstore
  | get key =>
      obtain ⟨r, hget⟩ := exists_of_map_snd hop
      rw [loadFromDisk_congr hsetup.diskCachePath (getChunk_spec hget).2.2.1 id]
      rcases lookup_getChunk hget id with hsame | ⟨-, hgone⟩
      · rw [hsame]
        exact h.sound
      · rw [hgone]
        exact nofun
  | remove key =>
      cases hop
      exact indexSound_removeChunk h hkeeps
  | promote key =>
      obtain ⟨ok, hpromote⟩ := exists_of_map_snd hop
      rw [disk_promoteToMemory hpromote,
        loadFromDisk_congr hsetup.diskCachePath (promoteToMemory_spec hpromote).2.1 id]
      exact h.sound
  | demote key =>
      cases hop
      cases hmemory : s.memoryCache.dataOf key with
      | none =>
          obtain ⟨hindex, hload⟩ := disk_demoteToDisk_absent hmemory
          rw [hindex, hload]
          exact h.sound
      | some data =>
          obtain ⟨hindex, hload⟩ := disk_demoteToDisk_present h.faultless h.path hmemory
          exact sound_of_insert h hindex (hload id)
  | evict =>
      obtain ⟨memory, -, rfl⟩ := triggerEviction_spec hop
      exact h.sound
  | updateMetadata metadata =>
      cases hop
      exact h.sound
  | openDisk =>
      cases hop
      obtain ⟨-, hfs, hsame⟩ := initializeDiskCache_tiers s
      rw [isSome_lookup_initializeDiskCache h.path, loadFromDisk_congr hsame hfs id]
      rintro ⟨-, hfile⟩
      rcases hkeeps with hfixed | habsent
      · rwa [read_chunkFile_of_fixed h.path hfixed] at hfile
      · rw [habsent] at hfile
        cases hfile

/-! ## Reading back -/

theorem getChunk_of_hasChunk {s : ChunkManager} {id : Bytes} (hwf : s.memoryCache.WellFormed)
    (hid : id ≠ []) (hhas : s.hasChunk id = true)
    (hsound : (s.diskIndex.lookup id).isSome = true → (s.loadFromDisk id).isSome = true)
    (hpromotable : ∀ data, s.loadFromDisk id = some data → Promotable s id data.length) :
    ∃ fuel chunk s', s.getChunk fuel id = some (some chunk, s') := by
  cases hmemory : s.memoryCache.dataOf id with
  | some data =>
      obtain ⟨chunk, s', hget⟩ := getChunk_of_memory hmemory
      exact ⟨0, chunk, s', hget⟩
  | none =>
      rw [hasChunk, LRUCache.contains_eq_isSome_dataOf, hmemory] at hhas
      have hindexed : (s.diskIndex.lookup id).isSome = true := by simpa using hhas
      obtain ⟨data, hload⟩ := Option.isSome_iff_exists.mp (hsound hindexed)
      exact getChunk_of_disk hwf hid hmemory hindexed hload (hpromotable data hload hmemory)

/-- After a store, and calls that spare its file, the chunk is there, and is
read back whenever a promotion would keep it.  More generally an indexed chunk
is read whenever its file was not taken away and a promotion would keep it. -/
theorem getChunk_reads_stored {H : Sha256} {float : FloatArith} {config : CacheConfig}
    {clock : Nat → UInt64} {fs : FileSystem} {fuel : Nat} {id : Bytes}
    (hpath : config.diskCachePath ≠ []) (hfs : fs.Faultless) (hid : id ≠ []) :
    (∀ before s₀ data ok s₁ after s,
      run H fuel (new float config clock fs) before = some s₀ →
      (data.length ≤ s₀.memoryCache.config.maxCapacity ∨ s₀.memoryCache.dataOf id = none) →
      s₀.storeChunk H fuel id data = some (ok, s₁) →
      EveryStep (apply H fuel) (fun s op => op.SparesFile id ∧ KeepsStored id s op) s₁ after →
      run H fuel s₁ after = some s →
      s.hasChunk id = true ∧
        (Promotable s id data.length →
          ∃ fuel' chunk s', s.getChunk fuel' id = some (some chunk, s') ∧ chunk.data = data)) ∧
    (∀ ops s,
      EveryStep (apply H fuel) (KeepsIndexed id) (new float config clock fs) ops →
      run H fuel (new float config clock fs) ops = some s →
      s.hasChunk id = true →
      (∀ data, s.loadFromDisk id = some data → Promotable s id data.length) →
      ∃ fuel' chunk s', s.getChunk fuel' id = some (some chunk, s')) := by
  have hnew : (new float config clock fs).memoryCache.WellFormed := LRUCache.wellFormed_new _ _
  constructor
  · intro before s₀ data ok s₁ after s hbefore hreplaces hstore hafter hrun
    have hsetup : SameSetup (new float config clock fs) s₀ :=
      runSteps_invariant (fun _ _ _ h _ hop => h.trans (sameSetup_apply hop)) (SameSetup.refl _)
        (EveryStep.of_forall fun _ _ => trivial) hbefore
    have hpath₀ : s₀.diskCachePath ≠ [] := by
      rw [hsetup.diskCachePath]
      exact hpath
    have hheld : Held id data s :=
      runSteps_invariant (fun _ _ _ h hP hop => held_apply h hP.1 hP.2 hop)
        (held_store (hsetup.faultless hfs) hpath₀ hreplaces hstore) hafter hrun
    have hhas : s.hasChunk id = true := by
      rw [hasChunk, hheld.indexed, Bool.or_true]
    refine ⟨hhas, fun hpromotable => ?_⟩
    have hwf := wellFormed_run (wellFormed_storeChunk (wellFormed_run hnew hbefore) hstore) hrun
    obtain ⟨fuel', chunk, s', hget⟩ := getChunk_of_hasChunk hwf hid hhas
      (fun _ => by rw [hheld.file]; rfl)
      (fun d hd => by rw [hheld.file] at hd; cases hd; exact hpromotable)
    exact ⟨fuel', chunk, s', hget, hheld.copies _ ((getChunk_spec hget).1 chunk rfl)⟩
  · intro ops s hops hrun hhas hpromotable
    have hstart : IndexSound id (new float config clock fs) :=
      ⟨hfs, hpath, fun h => absurd h (by simp [new])⟩
    have hsound : IndexSound id s :=
      runSteps_invariant (fun _ _ _ h hP hop => indexSound_apply h hP hop) hstart hops hrun
    exact getChunk_of_hasChunk (wellFormed_run hnew hrun) hid hhas hsound.sound hpromotable

/-- A chunk that was stored and demoted is promoted and read again. -/
theorem getChunk_reads_demoted :
    ∃ s₁ s, sampleManager.storeChunk sampleSha256 0 (ascii "a/b") [1] = some (true, s₁) ∧
      run sampleSha256 0 s₁ [.demote (ascii "a/b")] = some s ∧
      ∃ fuel chunk s', s.getChunk fuel (ascii "a/b") = some (some chunk, s') ∧
        chunk.data = [1] := by
  have hstored : (sampleManager.storeChunk sampleSha256 0 (ascii "a/b") [1]).any
      (fun r => r.1 && (run sampleSha256 0 r.2 [.demote (ascii "a/b")]).any fun s =>
        decide (s.memoryCache.currentSize + 1 ≤ s.memoryCache.config.maxCapacity) &&
          !LRUCache.usageAbove s.memoryCache.config (s.memoryCache.currentSize + 1)
            LRUCache.evictionThreshold) = true := by
    decide +kernel
  obtain ⟨⟨ok, s₁⟩, hstore, hok⟩ := (Option.any_eq_true _ _).mp hstored
  simp only [Bool.and_eq_true] at hok
  obtain ⟨rfl, hran⟩ := hok
  obtain ⟨s, hrun, hroom⟩ := (Option.any_eq_true _ _).mp hran
  simp only [Bool.and_eq_true, decide_eq_true_eq, Bool.not_eq_true'] at hroom
  refine ⟨s₁, s, hstore, hrun, ?_⟩
  have hkeeps : EveryStep (apply sampleSha256 0)
      (fun s op => op.SparesFile (ascii "a/b") ∧ KeepsStored (ascii "a/b") s op) s₁
      [.demote (ascii "a/b")] := by
    refine ⟨⟨trivial, fun hne _ => absurd rfl hne⟩, ?_⟩
    cases apply sampleSha256 0 s₁ (.demote (ascii "a/b")) <;> trivial
  exact ((getChunk_reads_stored (by decide) FileSystem.faultless_empty (by decide)).1
    [] sampleManager [1] true s₁ [.demote (ascii "a/b")] s rfl (Or.inr rfl) hstore hkeeps
    hrun).2 (fun _ => Or.inl hroom)

/-! ## Oversized chunks -/

/-- A chunk above the memory capacity is persisted and indexed but never read:
the promotion is refused. -/
theorem getChunk_oversized {H : Sha256} {s : ChunkManager} {id data : Bytes}
    (hs : s.fileSystem.Faultless) (hpath : s.diskCachePath ≠ [])
    (hbig : s.memoryCache.config.maxCapacity < data.length)
    (hnone : s.memoryCache.dataOf id = none) :
    ∃ s₁ s₂, s.storeChunk H 0 id data = some (false, s₁) ∧ s₁.hasChunk id = true ∧
      s₁.getChunk 0 id = some (none, s₂) := by
  have hput : s.memoryCache.currentTime.2.put 0 id data =
      some (false, s.memoryCache.currentTime.2) :=
    LRUCache.put_of_capacity_lt hbig
  obtain ⟨s₁, hstore⟩ : ∃ s₁, s.storeChunk H 0 id data = some (false, s₁) := by
    have hsize := sizeOk_freshMetadata H s.memoryCache.currentTime.1 id data
    unfold SizeOk at hsize
    rw [storeChunk_eq, storeChunkWithMetadata, if_neg hsize]
    change ∃ s₁, (s.memoryCache.currentTime.2.put 0 id data).bind _ = some (false, s₁)
    rw [hput]
    exact ⟨_, rfl⟩
  have hheld := held_store hs hpath (Or.inr hnone) hstore
  have hmemory : s₁.memoryCache = s.memoryCache.currentTime.2 := by
    rw [storeChunk_eq] at hstore
    have hput' := (storeChunkWithMetadata_spec hstore (sizeOk_freshMetadata H _ id data)).2.1
    exact (Prod.mk.inj (Option.some.inj (hput'.symm.trans hput))).2
  have hnone₁ : s₁.memoryCache.dataOf id = none := by
    rw [hmemory]
    exact hnone
  have hbig₁ : (afterMisses s₁.memoryCache).config.maxCapacity < data.length := by
    rw [afterMisses, hmemory]
    exact hbig
  have hmiss : (afterMisses s₁.memoryCache).dataOf id = none := hnone₁
  refine ⟨s₁, { s₁ with memoryCache := ((afterMisses s₁.memoryCache).get id).2 }, hstore, ?_, ?_⟩
  · rw [hasChunk, hheld.indexed, Bool.or_true]
  · rw [getChunk_eq_promote 0 hnone₁ hheld.indexed hheld.file, LRUCache.put_of_capacity_lt hbig₁,
      Option.map_some, LRUCache.get_of_dataOf_none hmiss]

def zerosSha256 : Sha256 := Sha256.table [(List.replicate (2 ^ 20 + 1) 0, [
  0x2c, 0xb7, 0x4e, 0xdb, 0xa7, 0x54, 0xa8, 0x1d, 0x12, 0x1c, 0x9d, 0xb6, 0x83, 0x37,
      0x04, 0xa8, 0xe7, 0xd4, 0x17, 0xe5, 0xb1, 0x3d, 0x1a, 0x19, 0xf4, 0xa5, 0x2f, 0x00,
      0x7d, 0x64, 0x42, 0x64])]

/-- With one mebibyte of memory, a chunk of one mebibyte and one byte is stored
and reported present, but reading it returns nothing. -/
theorem getChunk_loses_oversized :
    ∃ s₁ s₂, sampleManager.storeChunk zerosSha256 0 (ascii "big") (List.replicate (2 ^ 20 + 1) 0) =
        some (false, s₁) ∧
      s₁.hasChunk (ascii "big") = true ∧ s₁.getChunk 0 (ascii "big") = some (none, s₂) := by
  refine getChunk_oversized FileSystem.faultless_empty (by decide) ?_ rfl
  rw [List.length_replicate]
  decide

end ElioP2P.Cache.ChunkManager
