import ElioP2P.Cache.Proofs.Copies

/-!
# The chunk store as a map from ids to bytes

What the store is for is said by `lastStored`: a plain map that a store updates
and a removal clears.  The store refines it for a chunk as long as nothing else
writes the chunk's file and memory never keeps an older copy than the file.
File names are not injective in the chunk id, so both provisos can fail.
-/

namespace ElioP2P.Cache.ChunkManager

open ElioP2P.Library

/-- The map the store stands for.  A store that fails its size check does not
count. -/
def specApply (contents : Bytes → Option Bytes) : Op → Bytes → Option Bytes
  | .store id data => Function.update contents id (some data)
  | .storeWithMetadata metadata data =>
      if SizeOk metadata data then Function.update contents metadata.chunkId (some data)
      else contents
  | .remove id => Function.update contents id none
  | .get _ | .promote _ | .demote _ | .evict | .updateMetadata _ | .openDisk => contents

/-- The bytes of the most recent store of each id that no removal of the same id
followed. -/
def lastStored (ops : List Op) : Bytes → Option Bytes :=
  ops.foldl specApply fun _ => none

/-- Storing `data` under `key` leaves no stale copy of `id` behind: either `key`
is another id in another file, or memory takes the new bytes or has none. -/
def StoreReplaces (id : Bytes) (s : ChunkManager) (key data : Bytes) : Prop :=
  if key = id then
    data.length ≤ s.memoryCache.config.maxCapacity ∨ s.memoryCache.dataOf id = none
  else ¬ SameFile id key

instance (id : Bytes) (s : ChunkManager) (key data : Bytes) :
    Decidable (StoreReplaces id s key data) :=
  inferInstanceAs (Decidable (ite _ _ _))

def Undisturbed (id : Bytes) (s : ChunkManager) : Op → Prop
  | .store key data => StoreReplaces id s key data
  | .storeWithMetadata metadata data =>
      SizeOk metadata data → StoreReplaces id s metadata.chunkId data
  | .demote key => key ≠ id → SameFile id key → s.memoryCache.dataOf key = none
  | .get _ | .remove _ | .promote _ | .evict | .updateMetadata _ | .openDisk => True

instance (id : Bytes) (s : ChunkManager) : ∀ op, Decidable (Undisturbed id s op)
  | .store _ _ => inferInstanceAs (Decidable (StoreReplaces _ _ _ _))
  | .storeWithMetadata _ _ => inferInstanceAs (Decidable (_ → _))
  | .demote _ => inferInstanceAs (Decidable (_ → _ → _))
  | .get _ | .remove _ | .promote _ | .evict | .updateMetadata _ | .openDisk =>
      inferInstanceAs (Decidable True)

structure Refines (id : Bytes) (s : ChunkManager) (contents : Bytes → Option Bytes) :
    Prop where
  faultless : s.fileSystem.Faultless
  copies : ∀ data, Copy s id data → contents id = some data

/-! ## One call -/

theorem refines_store {id : Bytes} {fuel : Nat} {s s' : ChunkManager}
    {contents : Bytes → Option Bytes} {metadata : ChunkMetadata} {data : Bytes} {ok : Bool}
    (hR : Refines id s contents) (hsize : SizeOk metadata data)
    (hreplaces : StoreReplaces id s metadata.chunkId data)
    (h : s.storeChunkWithMetadata fuel metadata data = some (ok, s'))
    {d : Bytes} (hd : Copy s' id d) :
    Function.update contents metadata.chunkId (some data) id = some d := by
  unfold StoreReplaces at hreplaces
  by_cases hkey : metadata.chunkId = id
  · subst hkey
    rw [if_pos rfl] at hreplaces
    rw [copy_of_store_same hR.faultless h hsize hreplaces hd, Function.update_self]
  · rw [if_neg hkey] at hreplaces
    rw [Function.update_of_ne (Ne.symm hkey)]
    rcases copy_of_store hR.faultless h hd with ⟨hfile, -⟩ | hold
    · exact absurd hfile hreplaces
    · exact hR.copies d hold

theorem refines_apply {H : Sha256} {id : Bytes} {fuel : Nat} {s s' : ChunkManager}
    {contents : Bytes → Option Bytes} {op : Op} (hR : Refines id s contents)
    (hop : Undisturbed id s op) (h : s.apply H fuel op = some s') :
    Refines id s' (specApply contents op) := by
  refine ⟨(sameSetup_apply h).faultless hR.faultless, fun d hd => ?_⟩
  cases op with
  | store key data =>
      obtain ⟨ok, hstore⟩ := exists_of_map_snd h
      rw [storeChunk_eq] at hstore
      refine refines_store ?_ ?_ ?_ hstore hd
      · exact ⟨hR.faultless, hR.copies⟩
      · exact sizeOk_freshMetadata H _ key data
      · exact hop
  | storeWithMetadata metadata data =>
      obtain ⟨ok, hstore⟩ := exists_of_map_snd h
      by_cases hsize : SizeOk metadata data
      · simp only [specApply, if_pos hsize]
        exact refines_store hR hsize (hop hsize) hstore hd
      · rw [storeChunkWithMetadata_of_not_sizeOk hsize] at hstore
        cases hstore
        simp only [specApply, if_neg hsize]
        exact hR.copies d hd
  | get key =>
      obtain ⟨r, hget⟩ := exists_of_map_snd h
      exact hR.copies d (copy_of_getChunk hget hd)
  | remove key =>
      cases h
      obtain ⟨hold, hne⟩ := copy_of_removeChunk hd
      simp only [specApply, Function.update_of_ne hne]
      exact hR.copies d hold
  | promote key =>
      obtain ⟨ok, hpromote⟩ := exists_of_map_snd h
      exact hR.copies d (copy_of_promoteToMemory hpromote hd)
  | demote key =>
      cases h
      rcases copy_of_demoteToDisk hR.faultless hd with hold | ⟨hfile, hmem⟩
      · exact hR.copies d hold
      · by_cases hkey : key = id
        · subst hkey
          exact hR.copies d (Or.inl hmem)
        · rw [hop hkey hfile] at hmem
          cases hmem
  | evict => exact hR.copies d (copy_of_triggerEviction h hd)
  | updateMetadata metadata =>
      cases h
      exact hR.copies d (copy_of_updateMetadata hd)
  | openDisk =>
      cases h
      exact hR.copies d (copy_of_initializeDiskCache hd)

/-! ## Whole runs -/

theorem refines_new {float : FloatArith} {config : CacheConfig} {clock : Nat → UInt64}
    {fs : FileSystem} {id : Bytes} (hfs : fs.Faultless)
    (habsent : (new float config clock fs).loadFromDisk id = none) :
    Refines id (new float config clock fs) fun _ => none := by
  refine ⟨hfs, fun data hcopy => ?_⟩
  rcases hcopy with hmem | hdisk
  · cases hmem
  · rw [habsent] at hdisk
    cases hdisk

/-- A chunk that is read after a run of undisturbed calls carries the bytes of
its own most recent store. -/
theorem getChunk_eq_lastStored {H : Sha256} {float : FloatArith} {config : CacheConfig}
    {clock : Nat → UInt64} {fs : FileSystem} {fuel : Nat} {ops : List Op} {id : Bytes}
    {s s' : ChunkManager} {chunk : Chunk} (hfs : fs.Faultless)
    (habsent : (new float config clock fs).loadFromDisk id = none)
    (hops : EveryStep (apply H fuel) (Undisturbed id) (new float config clock fs) ops)
    (hrun : run H fuel (new float config clock fs) ops = some s)
    (hget : s.getChunk fuel id = some (some chunk, s')) :
    lastStored ops id = some chunk.data := by
  have hR : Refines id s (lastStored ops) := by
    refine runSteps_simulation ?_ (refines_new hfs habsent) hops hrun
    intro t contents op t' hR hop h
    exact refines_apply hR hop h
  exact hR.copies _ ((getChunk_spec hget).1 chunk rfl)

/-! ## A clash of file names -/

def sampleSha256 : Sha256 := Sha256.table
  [([1], [0x4b, 0xf5, 0x12, 0x2f, 0x34, 0x45, 0x54, 0xc5, 0x3b, 0xde, 0x2e, 0xbb, 0x8c, 0xd2,
      0xb7, 0xe3, 0xd1, 0x60, 0x0a, 0xd6, 0x31, 0xc3, 0x85, 0xa5, 0xd7, 0xcc, 0xe2, 0x3c,
      0x77, 0x85, 0x45, 0x9a]),
    ([2], [0xdb, 0xc1, 0xb4, 0xc9, 0x00, 0xff, 0xe4, 0x8d, 0x57, 0x5b, 0x5d, 0xa5, 0xc6, 0x38,
      0x04, 0x01, 0x25, 0xf6, 0x5d, 0xb0, 0xfe, 0x3e, 0x24, 0x49, 0x4b, 0x76, 0xea, 0x98,
      0x64, 0x57, 0xd9, 0x86])]

def sampleManager : ChunkManager :=
  new .ieee { memoryCacheSizeMb := 1, diskCachePath := ascii "/d" } (fun _ => 0) .empty

theorem exists_getChunk {before : Option ChunkManager} {fuel : Nat} {id : Bytes}
    (h : ((before.bind fun s => s.getChunk fuel id).bind Prod.fst).isSome = true) :
    ∃ s s' chunk, before = some s ∧ s.getChunk fuel id = some (some chunk, s') := by
  obtain ⟨chunk, hchunk⟩ := Option.isSome_iff_exists.mp h
  simp only [Option.bind_eq_some_iff] at hchunk
  obtain ⟨⟨r, s'⟩, ⟨s, hs, hget⟩, rfl⟩ := hchunk
  exact ⟨s, s', chunk, hs, hget⟩

theorem getChunk_eq_lastStored_demoted :
    ∃ s s' chunk,
      run sampleSha256 0 sampleManager [.store (ascii "a_b") [2], .demote (ascii "a_b")] = some s ∧
      s.getChunk 0 (ascii "a_b") = some (some chunk, s') ∧
      lastStored [.store (ascii "a_b") [2], .demote (ascii "a_b")] (ascii "a_b")
        = some chunk.data := by
  have hsome : (((run sampleSha256 0 sampleManager
      [.store (ascii "a_b") [2], .demote (ascii "a_b")]).bind fun s =>
        s.getChunk 0 (ascii "a_b")).bind Prod.fst).isSome = true := by
    decide +kernel
  obtain ⟨s, s', chunk, hrun, hget⟩ := exists_getChunk hsome
  refine ⟨s, s', chunk, hrun, hget, ?_⟩
  exact getChunk_eq_lastStored FileSystem.faultless_empty (by decide) (by decide +kernel)
    hrun hget

/-- The ids `a/b` and `a_b` share a file.  Once both have been demoted, the
file holds the bytes of the first and reading the second returns them. -/
theorem getChunk_returns_clashing_bytes :
    ((run sampleSha256 0 sampleManager
        [.store (ascii "a/b") [1], .store (ascii "a_b") [2], .demote (ascii "a_b"),
          .demote (ascii "a/b")]).bind fun s =>
      (s.getChunk 0 (ascii "a_b")).map fun r => r.1.map Chunk.data) = some (some [1]) ∧
    lastStored [.store (ascii "a/b") [1], .store (ascii "a_b") [2], .demote (ascii "a_b"),
      .demote (ascii "a/b")] (ascii "a_b") = some [2] := by
  decide +kernel

end ElioP2P.Cache.ChunkManager
