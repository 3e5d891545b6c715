import ElioP2P.Proxy.Proofs.Requests

/-!
# Keys of different objects and chunks

The names under which an object, its chunks and its `#meta` line are cached are
concatenations without any escaping.  A bucket has no slash, a chunk number no
underscore, and a `#meta` key does not end in a digit, so that no two of these
names are ever the same, whatever the object key contains.
-/

namespace ElioP2P.Proxy

open ElioP2P.Library ElioP2P.Cache ElioP2P.Cache.ChunkManager

theorem slash_notMem_bucket {request : HttpRequest} {info : CacheKeyInfo}
    (h : parseCacheKey request = some info) : 47 ∉ info.bucket := by
  simp only [parseCacheKey, Option.ite_none_left_eq_some, Option.some.injEq] at h
  obtain ⟨-, rfl⟩ := h
  intro hmem
  simpa using List.mem_takeWhile_imp hmem

theorem bucket_objectKey_of_fullObjectKey {request request' : HttpRequest}
    {info info' : CacheKeyInfo} (h : parseCacheKey request = some info)
    (h' : parseCacheKey request' = some info') (hkey : info.fullObjectKey = info'.fullObjectKey) :
    info.bucket = info'.bucket ∧ info.objectKey = info'.objectKey := by
  rw [← fullObjectKey_of_parseCacheKey h, ← fullObjectKey_of_parseCacheKey h',
    List.append_assoc, List.append_assoc] at hkey
  exact append_first_inj (slash_notMem_bucket h) (slash_notMem_bucket h') hkey

theorem computeChunkId_inj {key key' : Bytes} {offset offset' chunkSize : Nat}
    (h : computeChunkId key offset chunkSize = computeChunkId key' offset' chunkSize) :
    key = key' ∧ offset / chunkSize = offset' / chunkSize := by
  rw [computeChunkId, computeChunkId, List.append_assoc, List.append_assoc] at h
  obtain ⟨hkey, hnumber⟩ := append_separator_inj (notMem_decimal rfl _) (notMem_decimal rfl _) h
  exact ⟨hkey, decimal_injective hnumber⟩

theorem metaKey_inj {key key' : Bytes} (h : metaKey key = metaKey key') : key = key' :=
  List.append_cancel_right h

/-- A chunk id ends in a digit, a `#meta` key in a letter. -/
theorem computeChunkId_ne_metaKey (key key' : Bytes) (offset chunkSize : Nat) :
    computeChunkId key offset chunkSize ≠ metaKey key' := by
  intro h
  obtain ⟨ds, d, hdecimal, hdigit⟩ := exists_decimal_concat (offset / chunkSize)
  have hlast := congrArg List.getLast? h
  rw [computeChunkId, metaKey, hdecimal, ← List.append_assoc, List.getLast?_concat,
    List.getLast?_append_of_ne_nil _ (by decide)] at hlast
  have hletter : d = 97 := Option.some.inj hlast
  rw [hletter] at hdigit
  cases hdigit

/-- The names of different objects, chunks and `#meta` lines are different. -/
theorem cacheKeys_isolated {request request' : HttpRequest} {info info' : CacheKeyInfo}
    (hparse : parseCacheKey request = some info) (hparse' : parseCacheKey request' = some info')
    {chunkSize : Nat} (hpos : 0 < chunkSize) :
    (info.fullObjectKey = info'.fullObjectKey →
      info.bucket = info'.bucket ∧ info.objectKey = info'.objectKey) ∧
    (∀ key key' i j, i * chunkSize < 2 ^ 64 → j * chunkSize < 2 ^ 64 →
      computeChunkId key (i * chunkSize) chunkSize =
        computeChunkId key' (j * chunkSize) chunkSize → key = key' ∧ i = j) ∧
    (∀ key key', metaKey key = metaKey key' → key = key') ∧
    ∀ key key' offset, computeChunkId key offset chunkSize ≠ metaKey key' := by
  refine ⟨bucket_objectKey_of_fullObjectKey hparse hparse', ?_, fun _ _ => metaKey_inj,
    fun key key' offset => computeChunkId_ne_metaKey key key' offset chunkSize⟩
  intro key key' i j _ _ h
  obtain ⟨hkey, hnumber⟩ := computeChunkId_inj h
  rw [Nat.mul_div_cancel _ hpos, Nat.mul_div_cancel _ hpos] at hnumber
  exact ⟨hkey, hnumber⟩

def disguised : CacheKeyInfo :=
  { bucket := ascii "b_0", objectKey := ascii "k/0#meta", fullObjectKey := ascii "b_0/k/0#meta" }

def nested : CacheKeyInfo :=
  { bucket := ascii "b", objectKey := ascii "k_0/0", fullObjectKey := ascii "b/k_0/0" }

theorem cacheKeys_isolated_disguised :
    (disguised.fullObjectKey = nested.fullObjectKey →
      disguised.bucket = nested.bucket ∧ disguised.objectKey = nested.objectKey) ∧
    (∀ key key' i j, i * 16 < 2 ^ 64 → j * 16 < 2 ^ 64 →
      computeChunkId key (i * 16) 16 = computeChunkId key' (j * 16) 16 → key = key' ∧ i = j) ∧
    (∀ key key', metaKey key = metaKey key' → key = key') ∧
    ∀ key key' offset, computeChunkId key offset 16 ≠ metaKey key' := by
  have hparse : parseCacheKey { method := ascii "GET", path := ascii "/b_0/k/0#meta" } =
      some disguised := by decide
  have hparse' : parseCacheKey { method := ascii "GET", path := ascii "b/k_0/0" } =
      some nested := by decide
  exact cacheKeys_isolated hparse hparse' (by decide)

end ElioP2P.Proxy
