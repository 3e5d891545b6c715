import ElioP2P.Cache.LRUCache

/-!
# What the LRU cache holds

`dataOf` forgets recency, statistics and clocks and keeps the bytes cached
under each key.  Each operation is described by its effect on `dataOf`; callers
use these lemmas and do not unfold the operations.  None of them needs the
representation invariant.
-/

namespace ElioP2P.Cache.LRUCache

open ElioP2P.Library

def dataOf (s : LRUCache) (key : Bytes) : Option Bytes :=
  (s.cache.lookup key).map Chunk.data

def Shrinks (s s' : LRUCache) : Prop :=
  s'.config = s.config ∧
    ∀ key data, s'.dataOf key = some data → s.dataOf key = some data

theorem Shrinks.refl (s : LRUCache) : Shrinks s s := ⟨rfl, fun _ _ h => h⟩

theorem Shrinks.trans {s t u : LRUCache} (hst : Shrinks s t) (htu : Shrinks t u) :
    Shrinks s u :=
  ⟨htu.1.trans hst.1, fun key data h => hst.2 key data (htu.2 key data h)⟩

theorem dataOf_congr {s s' : LRUCache} (h : s'.cache = s.cache) (key : Bytes) :
    s'.dataOf key = s.dataOf key := by
  rw [dataOf, dataOf, h]

theorem contains_eq_isSome_dataOf (s : LRUCache) (key : Bytes) :
    s.contains key = (s.dataOf key).isSome := by
  simp [contains, dataOf]

@[simp] theorem cache_touch (s : LRUCache) (key : Bytes) : (s.touch key).cache = s.cache := by
  unfold touch
  split <;> rfl

@[simp] theorem config_touch (s : LRUCache) (key : Bytes) :
    (s.touch key).config = s.config := by
  unfold touch
  split <;> rfl

@[simp] theorem currentSize_touch (s : LRUCache) (key : Bytes) :
    (s.touch key).currentSize = s.currentSize := by
  unfold touch
  split <;> rfl

@[simp] theorem data_computeHeatLevel (float : FloatArith) (now : UInt64)
    (hot warm : UInt32) (c : Chunk) :
    (c.computeHeatLevel float now hot warm).data = c.data := rfl

/-! ## Reading -/

theorem config_get (s : LRUCache) (key : Bytes) : (s.get key).2.config = s.config := by
  unfold get
  split
  · rfl
  · exact config_touch s key

theorem currentSize_get (s : LRUCache) (key : Bytes) :
    (s.get key).2.currentSize = s.currentSize := by
  unfold get
  split
  · rfl
  · exact currentSize_touch s key

theorem data_get (s : LRUCache) (key : Bytes) :
    (s.get key).1.map Chunk.data = s.dataOf key := by
  unfold get dataOf
  split <;> rename_i h <;> simp [h]

theorem dataOf_get (s : LRUCache) (key k : Bytes) : (s.get key).2.dataOf k = s.dataOf k := by
  unfold get
  split
  · rfl
  · rename_i chunk hchunk
    by_cases hk : k = key
    · subst hk
      simp [dataOf, currentTime, hchunk]
    · simp [dataOf, currentTime, AList.lookup_insert_ne hk]

theorem get_of_dataOf_none {s : LRUCache} {key : Bytes} (h : s.dataOf key = none) :
    s.get key = (none, { s with stats := { s.stats with misses := s.stats.misses + 1 } }) := by
  have hlookup : s.cache.lookup key = none := by simpa [dataOf] using h
  simp [get, hlookup]

/-! ## Evicting -/

@[simp] theorem cache_selectEvictionTarget (s : LRUCache) :
    s.selectEvictionTarget.2.cache = s.cache := by
  unfold selectEvictionTarget
  split <;> rfl

@[simp] theorem config_selectEvictionTarget (s : LRUCache) :
    s.selectEvictionTarget.2.config = s.config := by
  unfold selectEvictionTarget
  split <;> rfl

@[simp] theorem cache_unlink (s : LRUCache) (key : Bytes) :
    (s.unlink key).cache = s.cache := by
  unfold unlink
  split <;> rfl

@[simp] theorem config_unlink (s : LRUCache) (key : Bytes) :
    (s.unlink key).config = s.config := by
  unfold unlink
  split <;> rfl

@[simp] theorem config_evictKey (s : LRUCache) (key : Bytes) :
    (s.evictKey key).config = s.config := by
  unfold evictKey
  simp only
  split <;> exact config_unlink s key

theorem cache_evictKey (s : LRUCache) (key : Bytes) :
    (s.evictKey key).cache = s.cache.erase key := by
  unfold evictKey
  simp only [cache_unlink]
  split
  · rfl
  · rename_i hnone
    rw [AList.lookup_eq_none] at hnone
    rw [cache_unlink]
    exact AList.ext (List.kerase_of_notMem_keys hnone).symm

theorem config_evictOne (s : LRUCache) : s.evictOne.config = s.config := by
  unfold evictOne
  simp only
  split
  · rfl
  · split <;> simp

theorem cache_evictOne (s : LRUCache) :
    s.evictOne.cache = s.cache ∨ ∃ key, s.evictOne.cache = s.cache.erase key := by
  unfold evictOne
  simp only
  split
  · exact Or.inl rfl
  · split
    · exact Or.inl (cache_selectEvictionTarget s)
    · right
      exact ⟨_, by rw [cache_evictKey, cache_selectEvictionTarget]⟩

theorem shrinks_evictOne (s : LRUCache) : Shrinks s s.evictOne := by
  refine ⟨config_evictOne s, fun key data h => ?_⟩
  rcases cache_evictOne s with heq | ⟨victim, heq⟩
  · rwa [dataOf_congr heq] at h
  · unfold dataOf at h ⊢
    rw [heq] at h
    by_cases hk : key = victim
    · subst hk
      simp at h
    · rwa [AList.lookup_erase_ne hk] at h

theorem evictWhile_invariant {I : LRUCache → Prop} {cond : LRUCache → Bool}
    (hstep : ∀ s, I s → I s.evictOne) {fuel : Nat} {s s' : LRUCache} (hI : I s)
    (h : evictWhile cond fuel s = some s') : I s' := by
  induction fuel generalizing s with
  | zero =>
      unfold evictWhile at h
      split at h
      · cases h
      · cases h
        exact hI
  | succ fuel ih =>
      unfold evictWhile at h
      split at h
      · exact ih (hstep s hI) h
      · cases h
        exact hI

theorem maybeEvict_invariant {I : LRUCache → Prop} (hstep : ∀ s, I s → I s.evictOne)
    {fuel : Nat} {s s' : LRUCache} (hI : I s) (h : maybeEvict fuel s = some s') : I s' := by
  unfold maybeEvict at h
  split at h
  · exact evictWhile_invariant hstep hI h
  · cases h
    exact hI

theorem shrinks_evictWhile {cond : LRUCache → Bool} {fuel : Nat} {s s' : LRUCache}
    (h : evictWhile cond fuel s = some s') : Shrinks s s' :=
  evictWhile_invariant (fun t ht => ht.trans (shrinks_evictOne t)) (Shrinks.refl s) h

theorem shrinks_maybeEvict {fuel : Nat} {s s' : LRUCache}
    (h : maybeEvict fuel s = some s') : Shrinks s s' :=
  maybeEvict_invariant (fun t ht => ht.trans (shrinks_evictOne t)) (Shrinks.refl s) h

/-! ## Writing -/

theorem config_insertNew (s : LRUCache) (key data : Bytes) :
    (s.insertNew key data).config = s.config := rfl

theorem dataOf_insertNew_same (s : LRUCache) (key data : Bytes) :
    (s.insertNew key data).dataOf key = some data := by
  simp [insertNew, makeChunk, currentTime, pushFront, dataOf]

theorem dataOf_insertNew_other (s : LRUCache) {key k : Bytes} (data : Bytes)
    (hk : k ≠ key) : (s.insertNew key data).dataOf k = s.dataOf k := by
  simp [insertNew, makeChunk, currentTime, pushFront, dataOf,
    AList.lookup_insert_ne hk]

/-- The cache of the replacing branch of `put`, before its key is touched. -/
def replaced (s : LRUCache) (key data : Bytes) (old : Chunk) : LRUCache :=
  let s := { s with currentSize := sub64 s.currentSize old.size }
  let (chunk, s) := s.makeChunk key data
  { s with
    cache := s.cache.insert key chunk
    currentSize := s.currentSize + data.length }

theorem dataOf_replaced_same (s : LRUCache) (key data : Bytes) (old : Chunk) :
    (s.replaced key data old).dataOf key = some data := by
  simp [replaced, makeChunk, currentTime, dataOf]

theorem dataOf_replaced_other (s : LRUCache) {key k : Bytes} (data : Bytes) (old : Chunk)
    (hk : k ≠ key) : (s.replaced key data old).dataOf k = s.dataOf k := by
  simp [replaced, makeChunk, currentTime, dataOf, AList.lookup_insert_ne hk]

theorem put_of_capacity_lt {fuel : Nat} {s : LRUCache} {key data : Bytes}
    (h : s.config.maxCapacity < data.length) : s.put fuel key data = some (false, s) := by
  simp [put, h]

/-- What `put` can do: refuse the item, replace what the key has, or make room,
insert and evict down to the target. -/
theorem put_cases {fuel : Nat} {s s' : LRUCache} {key data : Bytes} {ok : Bool}
    (h : s.put fuel key data = some (ok, s')) :
    (s.config.maxCapacity < data.length ∧ ok = false ∧ s' = s) ∨
    (data.length ≤ s.config.maxCapacity ∧ ok = true ∧
      ∃ old, s.cache.lookup key = some old ∧ s' = (s.replaced key data old).touch key) ∨
    (data.length ≤ s.config.maxCapacity ∧ ok = true ∧ s.cache.lookup key = none ∧
      ∃ room, evictWhile (overflowsWith data.length) fuel s = some room ∧
        maybeEvict fuel (room.insertNew key data) = some s') := by
  unfold put at h
  split at h
  · rename_i hbig
    cases h
    exact Or.inl ⟨hbig, rfl, rfl⟩
  · rename_i hfits
    have hle : data.length ≤ s.config.maxCapacity := by omega
    split at h
    · rename_i old hold
      cases h
      exact Or.inr (Or.inl ⟨hle, rfl, old, hold, rfl⟩)
    · rename_i hnone
      simp only [Option.bind_eq_bind, Option.bind_eq_some_iff, Option.some.injEq,
        Prod.mk.injEq] at h
      obtain ⟨room, hroom, evicted, hevict, rfl, rfl⟩ := h
      exact Or.inr (Or.inr ⟨hle, rfl, hnone, room, hroom, hevict⟩)

theorem config_put {fuel : Nat} {s s' : LRUCache} {key data : Bytes} {ok : Bool}
    (h : s.put fuel key data = some (ok, s')) : s'.config = s.config := by
  rcases put_cases h with ⟨-, -, rfl⟩ | ⟨-, -, old, -, rfl⟩ | ⟨-, -, -, room, hroom, hevict⟩
  · rfl
  · exact config_touch _ _
  · rw [(shrinks_maybeEvict hevict).1, config_insertNew, (shrinks_evictWhile hroom).1]

/-- After `put`, the key holds at most the new bytes and no other key holds
anything it did not hold before. -/
theorem dataOf_put {fuel : Nat} {s s' : LRUCache} {key data : Bytes} {ok : Bool}
    (h : s.put fuel key data = some (ok, s')) (hfit : data.length ≤ s.config.maxCapacity)
    {k d : Bytes} (hd : s'.dataOf k = some d) :
    (k = key ∧ d = data) ∨ (k ≠ key ∧ s.dataOf k = some d) := by
  rcases put_cases h with ⟨hbig, -⟩ | ⟨-, -, old, -, rfl⟩ | ⟨-, -, -, room, hroom, hevict⟩
  · omega
  · rw [dataOf_congr (cache_touch _ key)] at hd
    by_cases hk : k = key
    · rw [hk, dataOf_replaced_same] at hd
      exact Or.inl ⟨hk, (Option.some.inj hd).symm⟩
    · rw [dataOf_replaced_other s data old hk] at hd
      exact Or.inr ⟨hk, hd⟩
  · have hins := (shrinks_maybeEvict hevict).2 k d hd
    by_cases hk : k = key
    · rw [hk, dataOf_insertNew_same] at hins
      exact Or.inl ⟨hk, (Option.some.inj hins).symm⟩
    · rw [dataOf_insertNew_other room data hk] at hins
      exact Or.inr ⟨hk, (shrinks_evictWhile hroom).2 k d hins⟩

theorem dataOf_put_subset {fuel : Nat} {s s' : LRUCache} {key data : Bytes} {ok : Bool}
    (h : s.put fuel key data = some (ok, s')) {k d : Bytes} (hd : s'.dataOf k = some d) :
    (k = key ∧ d = data) ∨ s.dataOf k = some d := by
  by_cases hfit : data.length ≤ s.config.maxCapacity
  · rcases dataOf_put h hfit hd with hkey | ⟨-, hold⟩
    · exact Or.inl hkey
    · exact Or.inr hold
  · rw [put_of_capacity_lt (by omega)] at h
    cases h
    exact Or.inr hd

theorem config_remove (s : LRUCache) (key : Bytes) :
    (s.remove key).2.config = s.config := by
  unfold remove
  split
  · rfl
  · exact config_unlink _ key

theorem dataOf_remove_same (s : LRUCache) (key : Bytes) :
    (s.remove key).2.dataOf key = none := by
  unfold remove
  split
  · rename_i h
    simp [dataOf, h]
  · simp [dataOf]

theorem dataOf_remove_other (s : LRUCache) {key k : Bytes} (hk : k ≠ key) :
    (s.remove key).2.dataOf k = s.dataOf k := by
  unfold remove
  split
  · rfl
  · simp [dataOf, AList.lookup_erase_ne hk]

theorem shrinks_remove (s : LRUCache) (key : Bytes) : Shrinks s (s.remove key).2 := by
  refine ⟨config_remove s key, fun k d hd => ?_⟩
  by_cases hk : k = key
  · subst hk
    simp [dataOf_remove_same] at hd
  · rwa [dataOf_remove_other s hk] at hd

theorem dataOf_updateChunkMetadata (s : LRUCache) (key k : Bytes) (replicaCount : UInt32)
    (heatLevel : HeatLevel) :
    (s.updateChunkMetadata key replicaCount heatLevel).dataOf k = s.dataOf k := by
  unfold updateChunkMetadata
  split
  · rfl
  · rename_i chunk hchunk
    by_cases hk : k = key
    · subst hk
      simp [dataOf, hchunk]
    · simp [dataOf, AList.lookup_insert_ne hk]

theorem config_updateChunkMetadata (s : LRUCache) (key : Bytes) (replicaCount : UInt32)
    (heatLevel : HeatLevel) :
    (s.updateChunkMetadata key replicaCount heatLevel).config = s.config := by
  unfold updateChunkMetadata
  split <;> rfl

end ElioP2P.Cache.LRUCache
