import ElioP2P.Cache.Proofs.LRUContents
import ElioP2P.Library.Maps

/-!
# The representation invariant of the LRU cache

The recency list, the map of iterators and the map of chunks describe the same
set of keys, each key has its own list node, and the size counter is the sum of
the cached sizes.  Every operation keeps this, so no counter ever wraps and
every eviction of a non-empty key takes one entry away.
-/

namespace ElioP2P.Cache.LRUCache

open ElioP2P.Library

def keys (s : LRUCache) : List Bytes := s.lruList.map Prod.snd

structure WellFormed (s : LRUCache) : Prop where
  keysNodup : s.keys.Nodup
  nodesNodup : (s.lruList.map Prod.fst).Nodup
  nodesOld : ∀ entry ∈ s.lruList, entry.1 < s.nextNode
  linked : ∀ key node, s.lruMap.lookup key = some node ↔ (node, key) ∈ s.lruList
  cached : ∀ key, key ∈ s.cache ↔ key ∈ s.keys
  size : s.currentSize = sumValues Chunk.size s.cache

theorem wellFormed_new (config : LRUConfig) (clock : Nat → UInt64) :
    (new config clock).WellFormed where
  keysNodup := List.nodup_nil
  nodesNodup := List.nodup_nil
  nodesOld := by simp [new]
  linked := by simp [new]
  cached := by simp [new, keys]
  size := rfl

/-! ## List nodes -/

theorem mem_keys_iff {s : LRUCache} {key : Bytes} :
    key ∈ s.keys ↔ ∃ node, (node, key) ∈ s.lruList := by
  simp [keys]

theorem eraseNode_eq {s : LRUCache} (h : s.WellFormed) {key : Bytes} {node : Nat}
    (hnode : s.lruMap.lookup key = some node) :
    eraseNode s.lruList node = s.lruList.filter fun entry => entry.2 != key := by
  have hmem : (node, key) ∈ s.lruList := (h.linked key node).mp hnode
  apply List.filter_congr
  intro entry hentry
  have hiff : entry.1 = node ↔ entry.2 = key := by
    constructor
    · intro heq
      exact congrArg Prod.snd (List.inj_on_of_nodup_map h.nodesNodup hentry hmem heq)
    · intro heq
      exact congrArg Prod.fst (List.inj_on_of_nodup_map h.keysNodup hentry hmem heq)
  by_cases heq : entry.1 = node
  · rw [bne_eq_false_iff_eq.mpr heq, bne_eq_false_iff_eq.mpr (hiff.mp heq)]
  · rw [bne_iff_ne.mpr heq, bne_iff_ne.mpr fun hkey => heq (hiff.mpr hkey)]

theorem lookup_lruMap_isSome {s : LRUCache} (h : s.WellFormed) {key : Bytes}
    (hkey : key ∈ s.keys) : ∃ node, s.lruMap.lookup key = some node := by
  obtain ⟨node, hnode⟩ := mem_keys_iff.mp hkey
  exact ⟨node, (h.linked key node).mpr hnode⟩

theorem lookup_lruMap_eq_none {s : LRUCache} (h : s.WellFormed) {key : Bytes}
    (hkey : key ∉ s.keys) : s.lruMap.lookup key = none := by
  cases hlookup : s.lruMap.lookup key with
  | none => rfl
  | some node => exact absurd (mem_keys_iff.mpr ⟨node, (h.linked key node).mp hlookup⟩) hkey

def listWithout (s : LRUCache) (key : Bytes) : List (Nat × Bytes) :=
  s.lruList.filter fun entry => entry.2 != key

theorem mem_listWithout {s : LRUCache} {key : Bytes} {entry : Nat × Bytes} :
    entry ∈ s.listWithout key ↔ entry ∈ s.lruList ∧ entry.2 ≠ key := by
  simp [listWithout]

theorem listWithout_of_notMem {s : LRUCache} {key : Bytes} (h : key ∉ s.keys) :
    s.listWithout key = s.lruList := by
  apply List.filter_eq_self.mpr
  intro entry hentry
  rw [bne_iff_ne]
  rintro rfl
  exact h (mem_keys_iff.mpr ⟨entry.1, hentry⟩)

theorem unlink_spec {s : LRUCache} (h : s.WellFormed) (key : Bytes) :
    (s.unlink key).lruList = s.listWithout key ∧
      (∀ k, (s.unlink key).lruMap.lookup k = if k = key then none else s.lruMap.lookup k) ∧
      (s.unlink key).nextNode = s.nextNode ∧ (s.unlink key).currentSize = s.currentSize := by
  unfold unlink
  split
  · rename_i node hnode
    refine ⟨eraseNode_eq h hnode, fun k => ?_, rfl, rfl⟩
    by_cases hk : k = key
    · subst hk
      simp
    · simp [AList.lookup_erase_ne hk, hk]
  · rename_i hnone
    refine ⟨(listWithout_of_notMem fun hkey => ?_).symm, fun k => ?_, rfl, rfl⟩
    · obtain ⟨node, hnode⟩ := lookup_lruMap_isSome h hkey
      rw [hnone] at hnode
      cases hnode
    · by_cases hk : k = key
      · subst hk
        simp [hnone]
      · simp [hk]

/-- Forgetting a key keeps the invariant, provided its size is subtracted. -/
theorem wellFormed_forget {s s' : LRUCache} (h : s.WellFormed) (key : Bytes)
    (hlist : s'.lruList = s.listWithout key)
    (hmap : ∀ k, s'.lruMap.lookup k = if k = key then none else s.lruMap.lookup k)
    (hnode : s'.nextNode = s.nextNode) (hcache : s'.cache = s.cache.erase key)
    (hsize : s'.currentSize = sumValues Chunk.size (s.cache.erase key)) : s'.WellFormed where
  keysNodup := by
    rw [keys, hlist]
    exact h.keysNodup.sublist (List.filter_sublist.map _)
  nodesNodup := by
    rw [hlist]
    exact h.nodesNodup.sublist (List.filter_sublist.map _)
  nodesOld := by
    intro entry hentry
    rw [hlist, mem_listWithout] at hentry
    rw [hnode]
    exact h.nodesOld entry hentry.1
  linked := by
    intro k node
    rw [hmap, hlist, mem_listWithout]
    by_cases hk : k = key
    · simp [hk]
    · simp [hk, h.linked]
  cached := by
    intro k
    rw [hcache, AList.mem_erase, h.cached, mem_keys_iff, mem_keys_iff, hlist]
    simp only [mem_listWithout]
    constructor
    · rintro ⟨hk, node, hmem⟩
      exact ⟨node, hmem, hk⟩
    · rintro ⟨node, hmem, hk⟩
      exact ⟨hk, node, hmem⟩
  size := by rw [hsize, hcache]

theorem wellFormed_front {s s' : LRUCache} (h : s.WellFormed) (key : Bytes)
    (hlist : s'.lruList = (s.nextNode, key) :: s.listWithout key)
    (hmap : ∀ k, s'.lruMap.lookup k = if k = key then some s.nextNode else s.lruMap.lookup k)
    (hnode : s'.nextNode = s.nextNode + 1)
    (hcached : ∀ k, k ∈ s'.cache ↔ k = key ∨ k ∈ s.cache)
    (hsize : s'.currentSize = sumValues Chunk.size s'.cache) : s'.WellFormed where
  keysNodup := by
    rw [keys, hlist, List.map_cons, List.nodup_cons]
    refine ⟨fun hmem => ?_, h.keysNodup.sublist (List.filter_sublist.map _)⟩
    obtain ⟨entry, hentry, heq⟩ := List.mem_map.mp hmem
    exact (mem_listWithout.mp hentry).2 heq
  nodesNodup := by
    rw [hlist, List.map_cons, List.nodup_cons]
    refine ⟨fun hmem => ?_, h.nodesNodup.sublist (List.filter_sublist.map _)⟩
    obtain ⟨entry, hentry, heq⟩ := List.mem_map.mp hmem
    have hold := h.nodesOld entry (mem_listWithout.mp hentry).1
    omega
  nodesOld := by
    intro entry hentry
    rw [hlist, List.mem_cons] at hentry
    rw [hnode]
    rcases hentry with rfl | hentry
    · exact Nat.lt_succ_self _
    · have hold := h.nodesOld entry (mem_listWithout.mp hentry).1
      omega
  linked := by
    intro k node
    rw [hmap, hlist, List.mem_cons, mem_listWithout]
    by_cases hk : k = key
    · simp [hk, eq_comm]
    · simp [hk, h.linked]
  cached := by
    intro k
    rw [hcached, h.cached, keys, keys, hlist, List.map_cons, List.mem_cons]
    by_cases hk : k = key
    · simp [hk]
    · simp [hk, listWithout]
  size := hsize

/-! ## Each operation -/

theorem touch_spec {s : LRUCache} (h : s.WellFormed) {key : Bytes} (hkey : key ∈ s.keys) :
    (s.touch key).lruList = (s.nextNode, key) :: s.listWithout key ∧
      (∀ k, (s.touch key).lruMap.lookup k =
        if k = key then some s.nextNode else s.lruMap.lookup k) ∧
      (s.touch key).nextNode = s.nextNode + 1 := by
  obtain ⟨node, hnode⟩ := lookup_lruMap_isSome h hkey
  unfold touch
  simp only [hnode, pushFront, eraseNode_eq h hnode]
  refine ⟨rfl, fun k => ?_, trivial⟩
  by_cases hk : k = key
  · subst hk
    simp
  · simp [AList.lookup_insert_ne hk, hk]

theorem mem_cache_of_lookup {s : LRUCache} {key : Bytes} {chunk : Chunk}
    (hchunk : s.cache.lookup key = some chunk) : key ∈ s.cache :=
  AList.lookup_isSome.mp (by simp [hchunk])

theorem wellFormed_touch {s : LRUCache} (h : s.WellFormed) (key : Bytes) :
    (s.touch key).WellFormed := by
  by_cases hkey : key ∈ s.keys
  · obtain ⟨hlist, hmap, hnode⟩ := touch_spec h hkey
    refine wellFormed_front h key hlist hmap hnode (fun k => ?_) ?_
    · rw [cache_touch]
      constructor
      · exact Or.inr
      · rintro (rfl | hk)
        · exact (h.cached k).mpr hkey
        · exact hk
    · rw [cache_touch, currentSize_touch]
      exact h.size
  · unfold touch
    rw [lookup_lruMap_eq_none h hkey]
    exact h

theorem wellFormed_replace {s s' : LRUCache} (h : s.WellFormed) {key : Bytes} {old new : Chunk}
    (hold : s.cache.lookup key = some old) (hlist : s'.lruList = s.lruList)
    (hmap : s'.lruMap = s.lruMap) (hnode : s'.nextNode = s.nextNode)
    (hcache : s'.cache = s.cache.insert key new)
    (hsize : s'.currentSize + old.size = s.currentSize + new.size) : s'.WellFormed where
  keysNodup := by
    rw [keys, hlist]
    exact h.keysNodup
  nodesNodup := by
    rw [hlist]
    exact h.nodesNodup
  nodesOld := by
    rw [hlist, hnode]
    exact h.nodesOld
  linked := by
    rw [hlist, hmap]
    exact h.linked
  cached := by
    intro k
    rw [hcache, AList.mem_insert, keys, hlist]
    refine Iff.trans ?_ (h.cached k)
    constructor
    · rintro (rfl | hk)
      · exact mem_cache_of_lookup hold
      · exact hk
    · exact Or.inr
  size := by
    have hsum : sumValues Chunk.size (s.cache.insert key new) + old.size =
        sumValues Chunk.size s.cache + new.size :=
      sumValues_insert_of_lookup hold
    have hcurrent := h.size
    rw [hcache]
    omega

/-- A hit replaces the chunk record by one of the same size and moves its key
to the front. -/
theorem wellFormed_get {s : LRUCache} (h : s.WellFormed) (key : Bytes) :
    (s.get key).2.WellFormed := by
  unfold get
  split
  · exact ⟨h.keysNodup, h.nodesNodup, h.nodesOld, h.linked, h.cached, h.size⟩
  · rename_i chunk hchunk
    have hcached : (s.touch key).cache.lookup key = some chunk := by rw [cache_touch, hchunk]
    exact wellFormed_replace (wellFormed_touch h key) hcached rfl rfl rfl rfl rfl

theorem wellFormed_updateChunkMetadata {s : LRUCache} (h : s.WellFormed) (key : Bytes)
    (replicaCount : UInt32) (heatLevel : HeatLevel) :
    (s.updateChunkMetadata key replicaCount heatLevel).WellFormed := by
  unfold updateChunkMetadata
  split
  · exact h
  · rename_i chunk hchunk
    exact wellFormed_replace h hchunk rfl rfl rfl rfl rfl

theorem wellFormed_evictKey {s : LRUCache} (h : s.WellFormed) (key : Bytes) :
    (s.evictKey key).WellFormed := by
  obtain ⟨hlist, hmap, hnode, hsize⟩ := unlink_spec h key
  have hcache := cache_evictKey s key
  cases hchunk : s.cache.lookup key with
  | some chunk =>
      have hsum : sumValues Chunk.size (s.cache.erase key) + chunk.size = s.currentSize :=
        (sumValues_erase hchunk).trans h.size.symm
      unfold evictKey at hcache ⊢
      simp only [cache_unlink, hchunk] at hcache ⊢
      refine wellFormed_forget h key hlist hmap hnode rfl ?_
      simp only [hsize]
      rw [sub64_of_le (by omega)]
      omega
  | none =>
      have hsame : s.cache.erase key = s.cache := by
        apply AList.ext
        exact List.kerase_of_notMem_keys (AList.lookup_eq_none.mp hchunk)
      unfold evictKey at hcache ⊢
      simp only [cache_unlink, hchunk] at hcache ⊢
      refine wellFormed_forget h key hlist hmap hnode ((cache_unlink s key).trans hcache) ?_
      rw [hsize, hsame]
      exact h.size

theorem unlink_setSize (s : LRUCache) (key : Bytes) (size : Nat) (stats : CacheStats) :
    { s with currentSize := size, stats := stats }.unlink key =
      { s.unlink key with currentSize := size, stats := stats } := by
  unfold unlink
  simp only
  split <;> rfl

theorem wellFormed_remove {s : LRUCache} (h : s.WellFormed) (key : Bytes) :
    (s.remove key).2.WellFormed := by
  unfold remove
  split
  · exact h
  · rename_i chunk hchunk
    have hsum : sumValues Chunk.size (s.cache.erase key) + chunk.size = s.currentSize :=
      (sumValues_erase hchunk).trans h.size.symm
    obtain ⟨hlist, hmap, hnode, -⟩ := unlink_spec h key
    simp only [unlink_setSize, cache_unlink]
    refine wellFormed_forget h key hlist hmap hnode rfl ?_
    simp only
    rw [sub64_of_le (by omega)]
    omega

theorem wellFormed_insertNew {s : LRUCache} (h : s.WellFormed) {key : Bytes} (data : Bytes)
    (hkey : key ∉ s.cache) : (s.insertNew key data).WellFormed := by
  have hnotKey : key ∉ s.keys := fun hmem => hkey ((h.cached key).mpr hmem)
  refine wellFormed_front h key ?_ (fun k => ?_) rfl (fun k => ?_) ?_
  · rw [listWithout_of_notMem hnotKey]
    rfl
  · by_cases hk : k = key
    · subst hk
      simp [insertNew, makeChunk, currentTime, pushFront]
    · simp [insertNew, makeChunk, currentTime, pushFront, AList.lookup_insert_ne hk, hk]
  · simp [insertNew, makeChunk, currentTime, pushFront]
  · simp only [insertNew, makeChunk, currentTime, pushFront, AList.insert_insert, h.size]
    rw [sumValues_insert_of_notMem hkey]
    rfl

/-! ## Eviction -/

/-- The sampling loop ends on its start value or on an unprotected sample. -/
theorem foldl_considerCandidate (s : LRUCache) (now : UInt64) (sample : List Bytes)
    (best : Bytes × ℚ) :
    (sample.foldl (s.considerCandidate now) best).1 = best.1 ∨
      ((sample.foldl (s.considerCandidate now) best).1 ∈ sample ∧
        ∃ chunk, s.cache.lookup (sample.foldl (s.considerCandidate now) best).1 = some chunk ∧
          ¬ now - chunk.lastAccessTime < s.config.evictionProtectionSec) := by
  induction sample generalizing best with
  | nil => exact Or.inl rfl
  | cons key sample ih =>
      rw [List.foldl_cons]
      have hstep : (s.considerCandidate now best key).1 = best.1 ∨
          ((s.considerCandidate now best key).1 = key ∧ ∃ chunk, s.cache.lookup key = some chunk ∧
            ¬ now - chunk.lastAccessTime < s.config.evictionProtectionSec) := by
        unfold considerCandidate
        split
        · exact Or.inl rfl
        · rename_i chunk hchunk
          split
          · exact Or.inl rfl
          · rename_i hunprotected
            simp only
            split
            · exact Or.inr ⟨rfl, chunk, hchunk, hunprotected⟩
            · exact Or.inl rfl
      rcases ih (s.considerCandidate now best key) with hkeep | ⟨hmem, hchunk⟩
      · rw [hkeep]
        rcases hstep with hbest | ⟨hkey, hchunk⟩
        · exact Or.inl hbest
        · rw [hkey]
          exact Or.inr ⟨List.mem_cons_self, hchunk⟩
      · exact Or.inr ⟨List.mem_cons_of_mem _ hmem, hchunk⟩

theorem selectEvictionTarget_spec {s : LRUCache} (hne : s.lruList ≠ []) :
    ∃ key ∈ s.keys, s.selectEvictionTarget = (key, { s with ticks := s.ticks + 1 }) ∧
      (s.keys.getLast? = some key ∨
        ∃ chunk, s.cache.lookup key = some chunk ∧
          ¬ s.clock s.ticks - chunk.lastAccessTime < s.config.evictionProtectionSec) := by
  let later : LRUCache := { s with ticks := s.ticks + 1 }
  let sample := (s.lruList.reverse.take evictionSampleSize).map Prod.snd
  let best := sample.foldl (later.considerCandidate (s.clock s.ticks)) ([], -1)
  have hselect : s.selectEvictionTarget =
      (if best.1.isEmpty then (s.lruList.getLast?.map Prod.snd).getD [] else best.1, later) := by
    unfold selectEvictionTarget
    rw [if_neg (by simpa using hne)]
    rfl
  have hlast : s.keys.getLast? = some (s.lruList.getLast hne).2 := by
    rw [keys, List.getLast?_map, List.getLast?_eq_getLast_of_ne_nil hne]
    rfl
  by_cases hbest : best.1.isEmpty = true
  · refine ⟨(s.lruList.getLast hne).2, ?_, ?_, Or.inl hlast⟩
    · exact List.mem_of_getLast? hlast
    · rw [hselect, if_pos hbest, List.getLast?_eq_getLast_of_ne_nil hne]
      rfl
  · rcases foldl_considerCandidate later (s.clock s.ticks) sample
      ([], -1) with hnone | ⟨hmem, hfree⟩
    · exact absurd (by rw [hnone]; rfl) hbest
    · refine ⟨best.1, ?_, ?_, Or.inr hfree⟩
      · obtain ⟨entry, hentry, heq⟩ := List.mem_map.mp hmem
        refine mem_keys_iff.mpr ⟨entry.1, ?_⟩
        rw [← heq]
        exact List.mem_reverse.mp (List.mem_of_mem_take hentry)
      · rw [hselect, if_neg hbest]

theorem wellFormed_ticks {s : LRUCache} (h : s.WellFormed) (ticks : Nat) :
    { s with ticks := ticks }.WellFormed :=
  ⟨h.keysNodup, h.nodesNodup, h.nodesOld, h.linked, h.cached, h.size⟩

/-- Without an empty key in the cache, one eviction takes out exactly one key. -/
theorem evictOne_spec {s : LRUCache} (hne : s.lruList ≠ []) (hempty : [] ∉ s.keys) :
    ∃ key ∈ s.keys, s.evictOne = { s with ticks := s.ticks + 1 }.evictKey key ∧
      (s.keys.getLast? = some key ∨
        ∃ chunk, s.cache.lookup key = some chunk ∧
          ¬ s.clock s.ticks - chunk.lastAccessTime < s.config.evictionProtectionSec) := by
  obtain ⟨key, hkey, hselect, hwhich⟩ := selectEvictionTarget_spec hne
  refine ⟨key, hkey, ?_, hwhich⟩
  have hnonempty : key ≠ [] := by
    rintro rfl
    exact hempty hkey
  unfold evictOne
  rw [if_neg (by simpa using hne), hselect]
  simp only
  rw [if_neg (by simpa using hnonempty)]

theorem wellFormed_evictOne {s : LRUCache} (h : s.WellFormed) : s.evictOne.WellFormed := by
  by_cases hne : s.lruList = []
  · unfold evictOne
    rw [if_pos (by simpa using hne)]
    exact h
  · obtain ⟨key, -, hselect, -⟩ := selectEvictionTarget_spec hne
    unfold evictOne
    rw [if_neg (by simpa using hne), hselect]
    simp only
    split
    · exact wellFormed_ticks h _
    · exact wellFormed_evictKey (wellFormed_ticks h _) key

theorem wellFormed_evictWhile {cond : LRUCache → Bool} {fuel : Nat} {s s' : LRUCache}
    (h : s.WellFormed) (hrun : evictWhile cond fuel s = some s') : s'.WellFormed :=
  evictWhile_invariant (I := WellFormed) (fun _ => wellFormed_evictOne) h hrun

theorem wellFormed_maybeEvict {fuel : Nat} {s s' : LRUCache} (h : s.WellFormed)
    (hevict : maybeEvict fuel s = some s') : s'.WellFormed :=
  maybeEvict_invariant (I := WellFormed) (fun _ => wellFormed_evictOne) h hevict

theorem notMem_cache_of_shrinks {s s' : LRUCache} (h : Shrinks s s') {key : Bytes}
    (hnone : s.cache.lookup key = none) : key ∉ s'.cache := by
  rw [← AList.lookup_eq_none]
  cases hlookup : s'.cache.lookup key with
  | none => rfl
  | some chunk =>
      have hdata := h.2 key chunk.data (by simp [dataOf, hlookup])
      simp [dataOf, hnone] at hdata

theorem wellFormed_replaced {s : LRUCache} {key : Bytes} (data : Bytes) {old : Chunk}
    (h : s.WellFormed) (hold : s.cache.lookup key = some old) :
    (s.replaced key data old).WellFormed := by
  have hle : old.size ≤ s.currentSize := by
    have hsum := sumValues_erase (f := Chunk.size) hold
    have hcurrent := h.size
    omega
  refine wellFormed_replace h hold rfl rfl rfl rfl ?_
  change sub64 s.currentSize old.size + data.length + old.size = s.currentSize + data.length
  rw [sub64_of_le hle]
  omega

theorem wellFormed_put {fuel : Nat} {s s' : LRUCache} {key data : Bytes} {ok : Bool}
    (h : s.WellFormed) (hput : s.put fuel key data = some (ok, s')) : s'.WellFormed := by
  rcases put_cases hput with ⟨-, -, rfl⟩ | ⟨-, -, old, hold, rfl⟩ |
    ⟨-, -, hnone, room, hroom, hevict⟩
  · exact h
  · exact wellFormed_touch (wellFormed_replaced data h hold) key
  · have hnew := notMem_cache_of_shrinks (shrinks_evictWhile hroom) hnone
    have hwf := wellFormed_insertNew (wellFormed_evictWhile h hroom) data hnew
    exact wellFormed_maybeEvict hwf hevict

end ElioP2P.Cache.LRUCache
