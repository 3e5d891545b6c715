import ElioP2P.Cache.Proofs.Retrieval

/-!
# Chunk files that could not be written

A write that opens the file is taken for complete, so a device that fills up
leaves a prefix in the file and the full size in the index.  A write that cannot
open the file leaves whatever the file held before.  A chunk survives a faulty
store when neither happens: nothing but its own bytes is then ever read for it.
-/

namespace ElioP2P.Cache.ChunkManager

open ElioP2P.Library

/-- If there is a next write and it opens its file, all of `data` reaches the
device. -/
def WritesWhole (s : ChunkManager) (data : Bytes) : Prop :=
  s.diskCachePath ≠ [] →
    match s.fileSystem.outcome s.fileSystem.writes with
    | .complete | .openFails => True
    | .truncated n => data.length ≤ n

def WriteOpens (s : ChunkManager) : Prop :=
  s.fileSystem.outcome s.fileSystem.writes ≠ .openFails

/-- A store of `data` leaves no other bytes behind.  Memory takes the data or has
nothing else; the file takes all of it, or cannot be opened and has nothing
else, and then the index has no other size for it. -/
structure StoreSafe (id data : Bytes) (s : ChunkManager) : Prop where
  memory : data.length ≤ s.memoryCache.config.maxCapacity ∨
    ∀ d, s.memoryCache.dataOf id = some d → d = data
  whole : s.WritesWhole data
  unopened : ¬ s.WriteOpens → ∀ d, s.loadFromDisk id = some d → d = data ∧
    ∀ size, s.diskIndex.lookup id = some size → size = data.length

/-- A later call neither writes to the file of `id` for another chunk, nor a
part of it, nor finds another file called `id.chunk` when it rebuilds the
index. -/
def LeavesFile (id : Bytes) (s : ChunkManager) : Op → Prop
  | .store key _ => ¬ SameFile id key
  | .storeWithMetadata metadata data => SizeOk metadata data → ¬ SameFile id metadata.chunkId
  | .demote key =>
      SameFile id key → ∀ data, s.memoryCache.dataOf key = some data →
        key = id ∧ s.WritesWhole data
  | .openDisk => sanitizeChunkFilename id = id ∨
      s.fileSystem.read ⟨s.chunksDir, chunkFile id⟩ = none
  | .get _ | .remove _ | .promote _ | .evict | .updateMetadata _ => True

/-- Every copy of `id` is `data`, and the index has the size of the file. -/
structure OnlyCopy (id data : Bytes) (s : ChunkManager) : Prop where
  copies : ∀ d, Copy s id d → d = data
  index : ∀ size d, s.diskIndex.lookup id = some size → s.loadFromDisk id = some d →
    size = data.length

/-! ## What a write leaves in the file -/

theorem loadFromDisk_persistToDisk_whole {s : ChunkManager} {id data k d : Bytes}
    (hwhole : s.WritesWhole data) (hk : SameFile k id)
    (h : (s.persistToDisk id data).2.loadFromDisk k = some d) :
    ((s.persistToDisk id data).1 = true ∧ d = data) ∨
      ((s.persistToDisk id data).1 = false ∧ ¬ s.WriteOpens ∧ s.loadFromDisk k = some d) := by
  have hsetup := (sameSetup_persistToDisk s id data).diskCachePath
  by_cases hpath : s.diskCachePath = []
  · rw [loadFromDisk_of_no_path (hsetup.trans hpath)] at h
    cases h
  · have hnonempty : ¬ s.diskCachePath.isEmpty = true := by simpa using hpath
    have hwritten : (s.persistToDisk id data).2.loadFromDisk k =
        (s.fileSystem.write (s.chunkPath id) data).2.read (s.chunkPath id) := by
      unfold loadFromDisk
      rw [chunkPath_congr hsetup, (chunkPath_eq_iff s k id).mpr hk, hsetup, if_neg hnonempty]
      unfold persistToDisk
      rw [if_neg hnonempty]
    have hopened : (s.persistToDisk id data).1 = (s.fileSystem.write (s.chunkPath id) data).1 := by
      unfold persistToDisk
      rw [if_neg hnonempty]
    have hold : s.loadFromDisk k = s.fileSystem.read (s.chunkPath id) := by
      unfold loadFromDisk
      rw [(chunkPath_eq_iff s k id).mpr hk, if_neg hnonempty]
    rw [hwritten] at h
    rw [hopened, hold]
    have hwhole := hwhole hpath
    unfold WriteOpens
    unfold FileSystem.write FileSystem.read at h
    unfold FileSystem.write FileSystem.read
    cases houtcome : s.fileSystem.outcome s.fileSystem.writes with
    | complete =>
        simp only [houtcome, AList.lookup_insert, Option.some.injEq] at h ⊢
        exact Or.inl ⟨trivial, h.symm⟩
    | openFails =>
        simp only [houtcome] at h ⊢
        exact Or.inr ⟨trivial, by simp, h⟩
    | truncated n =>
        simp only [houtcome, AList.lookup_insert, Option.some.injEq] at h hwhole ⊢
        rw [List.take_of_length_le hwhole] at h
        exact Or.inl ⟨trivial, h.symm⟩

/-! ## The store -/

theorem onlyCopy_store {fuel : Nat} {s s' : ChunkManager} {metadata : ChunkMetadata} {data : Bytes}
    {ok : Bool} (hsafe : StoreSafe metadata.chunkId data s) (hsize : SizeOk metadata data)
    (h : s.storeChunkWithMetadata fuel metadata data = some (ok, s')) :
    OnlyCopy metadata.chunkId data s' := by
  obtain ⟨-, hput, -, hindex⟩ := storeChunkWithMetadata_spec h hsize
  have hload := loadFromDisk_storeChunkWithMetadata h hsize metadata.chunkId
  have hwritten : ∀ d, s'.loadFromDisk metadata.chunkId = some d → d = data ∧
      ∀ size, s'.diskIndex.lookup metadata.chunkId = some size → size = data.length := by
    intro d hd
    rw [hload] at hd
    rcases loadFromDisk_persistToDisk_whole hsafe.whole rfl hd with ⟨hopen, rfl⟩ |
      ⟨hclosed, hfails, hold⟩
    · refine ⟨rfl, fun size hlookup => ?_⟩
      rw [hindex, if_pos hopen, AList.lookup_insert, Option.some.injEq] at hlookup
      exact hlookup.symm
    · rw [hindex, if_neg (Bool.eq_false_iff.mp hclosed)]
      exact hsafe.unopened hfails d hold
  refine ⟨fun d hd => ?_, fun size d hlookup hd => (hwritten d hd).2 size hlookup⟩
  rcases hd with hd | hd
  · rcases hsafe.memory with hfits | hmemory
    · rcases LRUCache.dataOf_put hput hfits hd with ⟨-, rfl⟩ | ⟨hne, -⟩
      · rfl
      · exact absurd rfl hne
    · rcases LRUCache.dataOf_put_subset hput hd with ⟨-, rfl⟩ | hold
      · rfl
      · exact hmemory d hold
  · exact (hwritten d hd).1

theorem onlyCopy_storeChunk {H : Sha256} {fuel : Nat} {s s' : ChunkManager} {id data : Bytes}
    {ok : Bool} (hsafe : StoreSafe id data s) (h : s.storeChunk H fuel id data = some (ok, s')) :
    OnlyCopy id data s' := by
  rw [storeChunk_eq] at h
  have hsafe' : StoreSafe id data { s with memoryCache := s.memoryCache.currentTime.2 } :=
    ⟨hsafe.memory, hsafe.whole, hsafe.unopened⟩
  exact onlyCopy_store hsafe' (sizeOk_freshMetadata H _ id data) h

/-! ## Later calls -/

theorem onlyCopy_store_other {fuel : Nat} {s s' : ChunkManager} {id data d : Bytes}
    {metadata : ChunkMetadata} {ok : Bool} (h : OnlyCopy id data s)
    (hfile : SizeOk metadata d → ¬ SameFile id metadata.chunkId)
    (hstore : s.storeChunkWithMetadata fuel metadata d = some (ok, s')) : OnlyCopy id data s' := by
  by_cases hsize : SizeOk metadata d
  · have hother : ¬ SameFile id metadata.chunkId := hfile hsize
    have hkey : id ≠ metadata.chunkId := by
      rintro rfl
      exact hother rfl
    obtain ⟨-, hput, -, hindex⟩ := storeChunkWithMetadata_spec hstore hsize
    have hload : s'.loadFromDisk id = s.loadFromDisk id :=
      (loadFromDisk_storeChunkWithMetadata hstore hsize id).trans
        (loadFromDisk_persistToDisk_other hother)
    have hlookup : s'.diskIndex.lookup id = s.diskIndex.lookup id := by
      rw [hindex]
      split
      · exact AList.lookup_insert_ne hkey
      · rfl
    refine ⟨fun c hc => ?_, by rw [hlookup, hload]; exact h.index⟩
    rcases hc with hc | hc
    · rcases LRUCache.dataOf_put_subset hput hc with ⟨hsame, -⟩ | hold
      · exact absurd hsame hkey
      · exact h.copies c (Or.inl hold)
    · rw [hload] at hc
      exact h.copies c (Or.inr hc)
  · rw [storeChunkWithMetadata_of_not_sizeOk hsize] at hstore
    cases hstore
    exact h

/-- What a demotion does with the bytes that memory has: memory keeps none that
it did not have, and the file and the index follow the write. -/
theorem demoteToDisk_present {s : ChunkManager} {key d : Bytes}
    (hd : s.memoryCache.dataOf key = some d) :
    (∀ k c, (s.demoteToDisk key).2.memoryCache.dataOf k = some c →
      s.memoryCache.dataOf k = some c) ∧
      (∀ k, (s.demoteToDisk key).2.loadFromDisk k = (s.persistToDisk key d).2.loadFromDisk k) ∧
      (s.demoteToDisk key).2.diskIndex = if (s.persistToDisk key d).1 = true then
        s.diskIndex.insert key d.length else s.diskIndex := by
  have hdata := LRUCache.data_get s.memoryCache key
  rw [hd] at hdata
  obtain ⟨chunk, hchunk, rfl⟩ := Option.map_eq_some_iff.mp hdata
  have hget := LRUCache.dataOf_get s.memoryCache key
  let read : ChunkManager := { s with memoryCache := (s.memoryCache.get key).2 }
  have hpersisted : (read.persistToDisk key chunk.data).1 = (s.persistToDisk key chunk.data).1 := by
    unfold persistToDisk
    split <;> rfl
  have hload : ∀ k, (read.persistToDisk key chunk.data).2.loadFromDisk k =
      (s.persistToDisk key chunk.data).2.loadFromDisk k := by
    intro k
    apply loadFromDisk_congr <;> unfold persistToDisk <;> split <;> rfl
  unfold demoteToDisk
  simp only [hchunk]
  by_cases hopen : (s.persistToDisk key chunk.data).1 = true
  · rw [if_pos (hpersisted.trans hopen), if_pos hopen]
    simp only [memoryCache_persistToDisk, diskIndex_persistToDisk]
    refine ⟨fun k c hc => ?_, hload, rfl⟩
    rw [← hget]
    exact (LRUCache.shrinks_remove _ key).2 k c hc
  · rw [if_neg (fun hyes => hopen (hpersisted.symm.trans hyes)), if_neg hopen]
    simp only [memoryCache_persistToDisk, diskIndex_persistToDisk]
    refine ⟨fun k c hc => ?_, hload, trivial⟩
    rwa [hget] at hc

theorem onlyCopy_demoteToDisk_absent {s : ChunkManager} {id data key : Bytes}
    (h : OnlyCopy id data s) (hmemory : s.memoryCache.dataOf key = none) :
    OnlyCopy id data (s.demoteToDisk key).2 := by
  obtain ⟨hindex, hload⟩ := disk_demoteToDisk_absent hmemory
  have hcache : ∀ k, (s.demoteToDisk key).2.memoryCache.dataOf k = s.memoryCache.dataOf k := by
    intro k
    unfold demoteToDisk
    simp only [LRUCache.get_of_dataOf_none hmemory]
    rfl
  refine ⟨fun c hc => h.copies c ?_, by rw [hindex, hload]; exact h.index⟩
  rwa [Copy, hcache, hload] at hc

theorem onlyCopy_demoteToDisk_self {s : ChunkManager} {id data : Bytes} (h : OnlyCopy id data s)
    (hmemory : s.memoryCache.dataOf id = some data) (hwhole : s.WritesWhole data) :
    OnlyCopy id data (s.demoteToDisk id).2 := by
  obtain ⟨hcache, hload, hindex⟩ := demoteToDisk_present hmemory
  refine ⟨fun c hc => ?_, fun size c hlookup hc => ?_⟩
  · rcases hc with hc | hc
    · exact h.copies c (Or.inl (hcache _ c hc))
    · rw [hload] at hc
      rcases loadFromDisk_persistToDisk_whole hwhole rfl hc with ⟨-, rfl⟩ | ⟨-, -, hold⟩
      · rfl
      · exact h.copies c (Or.inr hold)
  · rw [hload] at hc
    rw [hindex] at hlookup
    rcases loadFromDisk_persistToDisk_whole hwhole rfl hc with ⟨hopen, -⟩ | ⟨hclosed, -, hold⟩
    · rw [if_pos hopen, AList.lookup_insert, Option.some.injEq] at hlookup
      exact hlookup.symm
    · rw [if_neg (Bool.eq_false_iff.mp hclosed)] at hlookup
      exact h.index size c hlookup hold

theorem onlyCopy_demoteToDisk_other {s : ChunkManager} {id data key d : Bytes}
    (h : OnlyCopy id data s) (hmemory : s.memoryCache.dataOf key = some d)
    (hfile : ¬ SameFile id key) : OnlyCopy id data (s.demoteToDisk key).2 := by
  obtain ⟨hcache, hload, hindex⟩ := demoteToDisk_present hmemory
  have hkey : id ≠ key := by
    rintro rfl
    exact hfile rfl
  have hsame : (s.demoteToDisk key).2.loadFromDisk id = s.loadFromDisk id :=
    (hload id).trans (loadFromDisk_persistToDisk_other hfile)
  have hlookup : (s.demoteToDisk key).2.diskIndex.lookup id = s.diskIndex.lookup id := by
    rw [hindex]
    split
    · exact AList.lookup_insert_ne hkey
    · rfl
  refine ⟨fun c hc => h.copies c ?_, by rw [hlookup, hsame]; exact h.index⟩
  rw [Copy, hsame] at hc
  exact hc.imp_left (hcache id c)

theorem onlyCopy_demoteToDisk {s : ChunkManager} {id data key : Bytes} (h : OnlyCopy id data s)
    (hleaves : LeavesFile id s (.demote key)) : OnlyCopy id data (s.demoteToDisk key).2 := by
  cases hmemory : s.memoryCache.dataOf key with
  | none => exact onlyCopy_demoteToDisk_absent h hmemory
  | some d =>
      by_cases hfile : SameFile id key
      · obtain ⟨rfl, hwhole⟩ := hleaves hfile d hmemory
        have hd : d = data := h.copies d (Or.inl hmemory)
        rw [hd] at hwhole hmemory
        exact onlyCopy_demoteToDisk_self h hmemory hwhole
      · exact onlyCopy_demoteToDisk_other h hmemory hfile

/-- A rebuilt index has the length of the file `id.chunk` for `id`. -/
theorem read_of_lookup_initializeDiskCache {s : ChunkManager} (hpath : s.diskCachePath ≠ [])
    {id : Bytes} {size : Nat} (h : s.initializeDiskCache.2.diskIndex.lookup id = some size) :
    ∃ data, s.fileSystem.read ⟨s.chunksDir, chunkFile id⟩ = some data ∧ size = data.length := by
  unfold initializeDiskCache at h
  rw [if_neg (by simpa using hpath)] at h
  rcases exists_of_lookup_foldl_insert h with hempty | ⟨⟨name, data⟩, hmem, rfl, rfl⟩
  · cases hempty
  · simp only [List.mem_filter, beq_iff_eq] at hmem
    obtain ⟨hlist, hchunk⟩ := hmem
    obtain ⟨hname, -⟩ :=
      of_splitExtension (Prod.ext rfl hchunk : splitExtension name = (_, ascii ".chunk"))
        (by decide)
    refine ⟨data, ?_, rfl⟩
    rw [chunkFile, ← hname]
    exact FileSystem.mem_list.mp hlist

theorem onlyCopy_initializeDiskCache {s : ChunkManager} {id data : Bytes} (h : OnlyCopy id data s)
    (hleaves : LeavesFile id s .openDisk) : OnlyCopy id data s.initializeDiskCache.2 := by
  obtain ⟨-, hfs, hsame⟩ := initializeDiskCache_tiers s
  have hload := loadFromDisk_congr hsame hfs id
  refine ⟨fun d hd => h.copies d (copy_of_initializeDiskCache hd), fun size d hlookup hd => ?_⟩
  rw [hload] at hd
  have hpath : s.diskCachePath ≠ [] := by
    intro hnil
    rw [loadFromDisk_of_no_path hnil] at hd
    cases hd
  obtain ⟨d', hread, rfl⟩ := read_of_lookup_initializeDiskCache hpath hlookup
  rcases hleaves with hfixed | hnone
  · rw [read_chunkFile_of_fixed hpath hfixed, hd, Option.some.injEq] at hread
    rw [← hread, h.copies d (Or.inr hd)]
  · rw [hread] at hnone
    cases hnone

/-- A read may drop the index entry of a file that it did not find. -/
theorem onlyCopy_getChunk {fuel : Nat} {s s' : ChunkManager} {id data key : Bytes}
    {r : Option Chunk} (h : OnlyCopy id data s) (hsetup : SameSetup s s')
    (hget : s.getChunk fuel key = some (r, s')) : OnlyCopy id data s' := by
  have hload := loadFromDisk_congr hsetup.diskCachePath (getChunk_spec hget).2.2.1 id
  refine ⟨fun d hd => h.copies d (copy_of_getChunk hget hd), fun size d hlookup hd => ?_⟩
  rw [hload] at hd
  rcases lookup_getChunk hget id with hsame | ⟨hnone, -⟩
  · rw [hsame] at hlookup
    exact h.index size d hlookup hd
  · rw [hd] at hnone
    cases hnone

theorem onlyCopy_removeChunk {s : ChunkManager} {id data key : Bytes} (h : OnlyCopy id data s) :
    OnlyCopy id data (s.removeChunk key).2 := by
  refine ⟨fun d hd => h.copies d (copy_of_removeChunk hd).1, fun size d hlookup hd => ?_⟩
  rw [loadFromDisk_removeChunk] at hd
  have hkey : id ≠ key := by
    rintro rfl
    rw [loadFromDisk_deleteFromDisk_same] at hd
    cases hd
  rw [disk_removeChunk, AList.lookup_erase_ne hkey] at hlookup
  exact h.index size d hlookup (loadFromDisk_deleteFromDisk hd)

theorem onlyCopy_apply {H : Sha256} {fuel : Nat} {s s' : ChunkManager} {id data : Bytes} {op : Op}
    (h : OnlyCopy id data s) (hleaves : LeavesFile id s op) (hop : s.apply H fuel op = some s') :
    OnlyCopy id data s' := by
  have hsetup := sameSetup_apply hop
  cases op with
  | store key d =>
      obtain ⟨ok, hstore⟩ := exists_of_map_snd hop
      rw [storeChunk_eq] at hstore
      have h' : OnlyCopy id data { s with memoryCache := s.memoryCache.currentTime.2 } :=
        ⟨h.copies, h.index⟩
      have hother : ¬ SameFile id key := hleaves
      exact onlyCopy_store_other h' (fun _ => hother) hstore
  | storeWithMetadata metadata d =>
      obtain ⟨ok, hstore⟩ := exists_of_map_snd hop
      exact onlyCopy_store_other h hleaves hstore
  | get key =>
      obtain ⟨r, hget⟩ := exists_of_map_snd hop
      exact onlyCopy_getChunk h hsetup hget
  | remove key =>
      cases hop
      exact onlyCopy_removeChunk h
  | promote key =>
      obtain ⟨ok, hpromote⟩ := exists_of_map_snd hop
      have hload := loadFromDisk_congr hsetup.diskCachePath (promoteToMemory_spec hpromote).2.1 id
      refine ⟨fun d hd => h.copies d (copy_of_promoteToMemory hpromote hd), ?_⟩
      rw [disk_promoteToMemory hpromote, hload]
      exact h.index
  | demote key =>
      cases hop
      exact onlyCopy_demoteToDisk h hleaves
  | evict =>
      have hcopies := fun d hd => h.copies d (copy_of_triggerEviction hop hd)
      obtain ⟨memory, -, rfl⟩ := triggerEviction_spec hop
      exact ⟨hcopies, h.index⟩
  | updateMetadata metadata =>
      cases hop
      exact ⟨fun d hd => h.copies d (copy_of_updateMetadata hd), h.index⟩
  | openDisk =>
      cases hop
      exact onlyCopy_initializeDiskCache h hleaves

/-! ## Every later read -/

def Uncorrupted (id data : Bytes) (s : ChunkManager) : Prop :=
  (∀ fuel chunk s', s.getChunk fuel id = some (some chunk, s') → chunk.data = data) ∧
    ∀ size d, s.diskIndex.lookup id = some size → s.loadFromDisk id = some d → size = d.length

theorem OnlyCopy.uncorrupted {id data : Bytes} {s : ChunkManager} (h : OnlyCopy id data s) :
    Uncorrupted id data s := by
  constructor
  · intro fuel chunk s' hget
    exact h.copies _ ((getChunk_spec hget).1 chunk rfl)
  · intro size d hlookup hd
    rw [h.copies d (Or.inr hd)]
    exact h.index size d hlookup hd

/-- Whatever write faults there are: after a safe store, and as long as the later
calls leave the file alone, the chunk is read as it was stored or not at all. -/
theorem uncorrupted_after_store {H : Sha256} {fuel : Nat} {s stored s' : ChunkManager}
    {id data : Bytes} {ok : Bool} {ops : List Op} (hsafe : StoreSafe id data s)
    (hstore : s.storeChunk H fuel id data = some (ok, stored))
    (hleaves : EveryStep (apply H fuel) (LeavesFile id) stored ops)
    (hrun : run H fuel stored ops = some s') : Uncorrupted id data s' := by
  have honly : OnlyCopy id data s' :=
    runSteps_invariant (fun _ _ _ h hP hop => onlyCopy_apply h hP hop)
      (onlyCopy_storeChunk hsafe hstore) hleaves hrun
  exact honly.uncorrupted

def firstWrite (outcome : WriteOutcome) : FileSystem :=
  { FileSystem.empty with outcome := fun n => if n = 0 then outcome else .complete }

def faultyManager (outcome : WriteOutcome) : ChunkManager :=
  new FloatArith.ieee { memoryCacheSizeMb := 1 } (fun _ => 0) (firstWrite outcome)

theorem storeSafe_of_openFails (id : Bytes) :
    StoreSafe id [1, 2] (faultyManager .openFails) where
  memory := Or.inl (by decide)
  whole := fun _ => trivial
  unopened := fun _ _ hd => nomatch hd

/-- The first store of a chunk cannot open its file: later reads find its data
in memory, or nothing. -/
theorem uncorrupted_after_store_unopened :
    ∃ stored ok s', (faultyManager .openFails).storeChunk (Sha256.table []) 0 (ascii "a") [1, 2] =
        some (ok, stored) ∧
      run (Sha256.table []) 0 stored [.demote (ascii "a"), .get (ascii "a")] = some s' ∧
        Uncorrupted (ascii "a") [1, 2] s' := by
  have hcheck : ((faultyManager .openFails).storeChunk (Sha256.table []) 0 (ascii "a") [1, 2]).any
      (fun r => (run (Sha256.table []) 0 r.2 [.demote (ascii "a"), .get (ascii "a")]).isSome &&
        decide (r.2.fileSystem.outcome r.2.fileSystem.writes = .complete)) = true := by
    decide +kernel
  obtain ⟨⟨ok, stored⟩, hstore, hstored⟩ := (Option.any_eq_true _ _).mp hcheck
  rw [Bool.and_eq_true, decide_eq_true_eq] at hstored
  obtain ⟨hsome, hcomplete⟩ := hstored
  obtain ⟨s', hrun⟩ := Option.isSome_iff_exists.mp hsome
  have hleaves : EveryStep (apply (Sha256.table []) 0) (LeavesFile (ascii "a")) stored
      [.demote (ascii "a"), .get (ascii "a")] := by
    refine ⟨fun _ data _ => ⟨rfl, fun _ => ?_⟩, EveryStep.single trivial⟩
    rw [hcomplete]
    trivial
  exact ⟨stored, ok, s', hstore, hrun,
    uncorrupted_after_store (storeSafe_of_openFails _) hstore hleaves hrun⟩

/-- Only the first of two bytes reaches the file: the index says two, and once
the chunk has been promoted from the file a read returns the one byte. -/
theorem not_uncorrupted_truncated :
    ∃ stored ok s', (faultyManager (.truncated 1)).storeChunk (Sha256.table []) 0 (ascii "a")
        [1, 2] = some (ok, stored) ∧
      run (Sha256.table []) 0 stored [.promote (ascii "a")] = some s' ∧
        ¬ Uncorrupted (ascii "a") [1, 2] s' ∧
          ∃ chunk s'', s'.getChunk 0 (ascii "a") = some (some chunk, s'') ∧ chunk.data = [1] := by
  have hcheck : ((faultyManager (.truncated 1)).storeChunk (Sha256.table []) 0 (ascii "a")
      [1, 2]).any (fun r => (run (Sha256.table []) 0 r.2 [.promote (ascii "a")]).any fun s' =>
        (s'.getChunk 0 (ascii "a")).any fun g => g.1.any fun chunk => decide (chunk.data = [1])) =
      true := by
    decide +kernel
  obtain ⟨⟨ok, stored⟩, hstore, hstored⟩ := (Option.any_eq_true _ _).mp hcheck
  obtain ⟨s', hrun, hs'⟩ := (Option.any_eq_true _ _).mp hstored
  obtain ⟨⟨found, s''⟩, hget, hfound⟩ := (Option.any_eq_true _ _).mp hs'
  obtain ⟨chunk, hchunk, hdata⟩ := (Option.any_eq_true _ _).mp hfound
  cases hchunk
  have hone := of_decide_eq_true hdata
  refine ⟨stored, ok, s', hstore, hrun, fun huncorrupted => ?_, chunk, s'', hget, hone⟩
  have htwo := huncorrupted.1 0 chunk s'' hget
  rw [hone] at htwo
  cases htwo

end ElioP2P.Cache.ChunkManager
