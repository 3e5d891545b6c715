import ElioP2P.Cache.Proofs.Statistics

/-!
# Access times

Every access time in the cache is a clock reading that a call has taken, so a
clock that does not run backwards is never behind one.
-/

namespace ElioP2P.Cache.LRUCache

open ElioP2P.Library

def Stamped (s : LRUCache) : Prop :=
  ∀ key chunk, s.cache.lookup key = some chunk →
    ∃ i < s.ticks, chunk.lastAccessTime = s.clock i

/-- The cache is at a later clock reading, and each of its chunks has the access
time of a chunk of `s` or of a reading in between. -/
structure Later (s s' : LRUCache) : Prop where
  clock : s'.clock = s.clock
  ticks : s.ticks ≤ s'.ticks
  config : ∃ hot warm, s'.config = { s.config with hotThreshold := hot, warmThreshold := warm }
  chunks : ∀ key chunk, s'.cache.lookup key = some chunk →
    (∃ old, s.cache.lookup key = some old ∧ chunk.lastAccessTime = old.lastAccessTime) ∨
      ∃ i < s'.ticks, chunk.lastAccessTime = s.clock i

theorem Later.refl (s : LRUCache) : Later s s :=
  ⟨rfl, Nat.le_refl _, ⟨_, _, rfl⟩, fun _ chunk hchunk => Or.inl ⟨chunk, hchunk, rfl⟩⟩

theorem Later.trans {s t u : LRUCache} (hst : Later s t) (htu : Later t u) : Later s u where
  clock := htu.clock.trans hst.clock
  ticks := hst.ticks.trans htu.ticks
  config := by
    obtain ⟨hot, warm, ht⟩ := hst.config
    obtain ⟨hot', warm', hu⟩ := htu.config
    exact ⟨hot', warm', by rw [hu, ht]⟩
  chunks key chunk hchunk := by
    rcases htu.chunks key chunk hchunk with ⟨old, hold, htime⟩ | ⟨i, hi, htime⟩
    · rcases hst.chunks key old hold with ⟨first, hfirst, htime'⟩ | ⟨i, hi, htime'⟩
      · exact Or.inl ⟨first, hfirst, htime.trans htime'⟩
      · exact Or.inr ⟨i, lt_of_lt_of_le hi htu.ticks, htime.trans htime'⟩
    · exact Or.inr ⟨i, hi, by rw [htime, hst.clock]⟩

theorem Later.stamped {s s' : LRUCache} (h : Later s s') (hs : s.Stamped) : s'.Stamped := by
  intro key chunk hchunk
  rcases h.chunks key chunk hchunk with ⟨old, hold, htime⟩ | ⟨i, hi, htime⟩
  · obtain ⟨i, hi, hread⟩ := hs key old hold
    exact ⟨i, lt_of_lt_of_le hi h.ticks, by rw [htime, hread, h.clock]⟩
  · exact ⟨i, hi, by rw [htime, h.clock]⟩

/-- A state that differs in no chunk but one, whose access time is old or new. -/
theorem later_insert {s s' : LRUCache} {key : Bytes} {chunk : Chunk} (hclock : s'.clock = s.clock)
    (hticks : s.ticks ≤ s'.ticks) (hconfig : s'.config = s.config)
    (hcache : s'.cache = s.cache.insert key chunk)
    (hchunk : (∃ old, s.cache.lookup key = some old ∧ chunk.lastAccessTime = old.lastAccessTime) ∨
      ∃ i < s'.ticks, chunk.lastAccessTime = s.clock i) : Later s s' where
  clock := hclock
  ticks := hticks
  config := ⟨_, _, hconfig⟩
  chunks k c hc := by
    rw [hcache] at hc
    by_cases hk : k = key
    · subst hk
      rw [AList.lookup_insert, Option.some.injEq] at hc
      exact hc ▸ hchunk
    · rw [AList.lookup_insert_ne hk] at hc
      exact Or.inl ⟨c, hc, rfl⟩

theorem later_erase {s s' : LRUCache} {key : Bytes} (hclock : s'.clock = s.clock)
    (hticks : s.ticks ≤ s'.ticks) (hconfig : s'.config = s.config)
    (hcache : s'.cache = s.cache.erase key) : Later s s' where
  clock := hclock
  ticks := hticks
  config := ⟨_, _, hconfig⟩
  chunks k c hc := by
    rw [hcache] at hc
    by_cases hk : k = key
    · rw [hk, AList.lookup_erase] at hc
      cases hc
    · rw [AList.lookup_erase_ne hk] at hc
      exact Or.inl ⟨c, hc, rfl⟩

theorem clock_touch (s : LRUCache) (key : Bytes) :
    (s.touch key).clock = s.clock ∧ (s.touch key).ticks = s.ticks := by
  unfold touch
  split <;> exact ⟨rfl, rfl⟩

theorem clock_unlink (s : LRUCache) (key : Bytes) :
    (s.unlink key).clock = s.clock ∧ (s.unlink key).ticks = s.ticks := by
  unfold unlink
  split <;> exact ⟨rfl, rfl⟩

theorem later_get (s : LRUCache) (key : Bytes) : Later s (s.get key).2 := by
  unfold get
  split
  · exact ⟨rfl, Nat.le_refl _, ⟨_, _, rfl⟩, fun _ chunk hchunk => Or.inl ⟨chunk, hchunk, rfl⟩⟩
  · obtain ⟨hclock, hticks⟩ := clock_touch s key
    refine later_insert hclock ?_ (config_touch s key)
      (congrArg (AList.insert key _) (cache_touch s key)) (Or.inr ⟨s.ticks, ?_, ?_⟩)
    · simp [currentTime, hticks]
    · simp [currentTime, hticks]
    · simp [currentTime, hticks, hclock, Chunk.computeHeatLevel]

theorem later_evictOne (s : LRUCache) : Later s s.evictOne := by
  by_cases hne : s.lruList = []
  · unfold evictOne
    rw [if_pos (by simpa using hne)]
    exact Later.refl s
  · obtain ⟨key, -, hselect, -⟩ := selectEvictionTarget_spec hne
    unfold evictOne
    rw [if_neg (by simpa using hne), hselect]
    simp only
    split
    · exact ⟨rfl, Nat.le_succ _, ⟨_, _, rfl⟩, fun _ chunk hchunk => Or.inl ⟨chunk, hchunk, rfl⟩⟩
    · obtain ⟨hclock, hticks⟩ := clock_evictKey { s with ticks := s.ticks + 1 } key
      refine later_erase hclock ?_ (config_evictKey _ key) (cache_evictKey _ key)
      rw [hticks]
      exact Nat.le_succ _

theorem later_insertNew (s : LRUCache) (key data : Bytes) : Later s (s.insertNew key data) := by
  have hcache : (s.insertNew key data).cache =
      s.cache.insert key ((s.makeChunk key data).1.computeHeatLevel s.config.float
        (s.clock (s.ticks + 1)) s.config.hotThreshold s.config.warmThreshold) :=
    AList.insert_insert _
  refine later_insert rfl ?_ rfl hcache (Or.inr ⟨s.ticks, ?_, rfl⟩)
  · exact Nat.le_add_right s.ticks 2
  · exact Nat.lt_succ_of_le (Nat.le_succ s.ticks)

theorem later_evictWhile {cond : LRUCache → Bool} {fuel : Nat} {s s' : LRUCache}
    (hrun : evictWhile cond fuel s = some s') : Later s s' :=
  evictWhile_invariant (I := Later s) (fun t ht => ht.trans (later_evictOne t)) (Later.refl s) hrun

theorem later_maybeEvict {fuel : Nat} {s s' : LRUCache} (hrun : maybeEvict fuel s = some s') :
    Later s s' :=
  maybeEvict_invariant (I := Later s) (fun t ht => ht.trans (later_evictOne t)) (Later.refl s) hrun

theorem later_put {fuel : Nat} {s s' : LRUCache} {key data : Bytes} {ok : Bool}
    (hput : s.put fuel key data = some (ok, s')) : Later s s' := by
  rcases put_cases hput with ⟨-, -, rfl⟩ | ⟨-, -, old, -, rfl⟩ | ⟨-, -, -, room, hroom, hevict⟩
  · exact Later.refl _
  · obtain ⟨hclock, hticks⟩ := clock_touch (s.replaced key data old) key
    refine later_insert hclock ?_ (config_touch _ key) (cache_touch _ key)
      (Or.inr ⟨s.ticks, ?_, rfl⟩)
    · rw [hticks]
      exact Nat.le_succ s.ticks
    · rw [hticks]
      exact Nat.lt_succ_self s.ticks
  · exact ((later_evictWhile hroom).trans (later_insertNew room key data)).trans
      (later_maybeEvict hevict)

theorem later_remove (s : LRUCache) (key : Bytes) : Later s (s.remove key).2 := by
  unfold remove
  split
  · exact Later.refl s
  · simp only [unlink_setSize, cache_unlink]
    obtain ⟨hclock, hticks⟩ := clock_unlink s key
    exact later_erase hclock hticks.ge (config_unlink s key) rfl

theorem later_updateChunkMetadata (s : LRUCache) (key : Bytes) (replicaCount : UInt32)
    (heatLevel : HeatLevel) : Later s (s.updateChunkMetadata key replicaCount heatLevel) := by
  unfold updateChunkMetadata
  split
  · exact Later.refl s
  · rename_i chunk hchunk
    exact later_insert rfl (Nat.le_refl _) rfl rfl (Or.inl ⟨chunk, hchunk, rfl⟩)

theorem later_readStats (s : LRUCache) : Later s s.readStats.2 where
  clock := rfl
  ticks := Nat.le_succ s.ticks
  config := ⟨_, _, rfl⟩
  chunks key chunk hchunk := by
    rw [readStats, updateHeatCounts] at hchunk
    simp only [currentTime, lookup_mapValues, Option.map_eq_some_iff] at hchunk
    obtain ⟨old, hold, rfl⟩ := hchunk
    exact Or.inl ⟨old, hold, rfl⟩

theorem later_apply {fuel : Nat} {s s' : LRUCache} {op : Op} (hop : s.apply fuel op = some s') :
    Later s s' := by
  cases op with
  | put key data =>
      obtain ⟨ok, hput⟩ := exists_of_map_snd hop
      exact later_put hput
  | get key =>
      cases hop
      exact later_get s key
  | remove key =>
      cases hop
      exact later_remove s key
  | clear =>
      cases hop
      exact ⟨rfl, Nat.le_refl _, ⟨_, _, rfl⟩, nofun⟩
  | updateChunkMetadata key replicaCount heatLevel =>
      cases hop
      exact later_updateChunkMetadata s key replicaCount heatLevel
  | maybeEvict => exact later_maybeEvict hop
  | evictToTarget => exact later_evictWhile hop

theorem later_call {fuel : Nat} {s s' : LRUCache} {c : Call} (hcall : s.call fuel c = some s') :
    Later s s' := by
  cases c with
  | op op => exact later_apply hcall
  | stats =>
      cases hcall
      exact later_readStats s
  | setHeatThresholds hotThreshold warmThreshold =>
      cases hcall
      exact ⟨rfl, Nat.le_refl _, ⟨_, _, rfl⟩, fun _ chunk hchunk => Or.inl ⟨chunk, hchunk, rfl⟩⟩

theorem later_run {fuel : Nat} {s s' : LRUCache} {calls : List Call}
    (hrun : runSteps (call fuel) s calls = some s') : Later s s' :=
  runSteps_invariant (I := Later s) (P := fun _ _ => True)
    (fun _ _ _ ht _ hcall => ht.trans (later_call hcall)) (Later.refl s)
    (EveryStep.of_forall fun _ _ => trivial) hrun

theorem Passes.later {s t : LRUCache} (hpasses : s.Passes t) : Later s t := by
  induction hpasses with
  | here => exact Later.refl s
  | evict _ ih => exact ih.trans (later_evictOne _)
  | insert data _ _ ih => exact ih.trans (later_insertNew _ _ data)

end ElioP2P.Cache.LRUCache
