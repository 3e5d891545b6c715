import ElioP2P.Cache.Proofs.LRUInvariant

/-!
# When `put` keeps what it inserts

`put` may evict twice: to make room, and again when the cache is above its
eviction threshold with the new entry in it.  The second round can take out the
new entry itself.  It does not when the entry alone is within the target, no
eviction can hang on an empty key, and the clock readings of the call are close
enough for the entry to count as just used.
-/

namespace ElioP2P.Cache.LRUCache

open ElioP2P.Library

/-! ## Fuel -/

theorem evictWhile_mono {cond : LRUCache → Bool} {fuel fuel' : Nat} {s s' : LRUCache}
    (hle : fuel ≤ fuel') (h : evictWhile cond fuel s = some s') :
    evictWhile cond fuel' s = some s' := by
  induction fuel generalizing fuel' s with
  | zero =>
      unfold evictWhile at h ⊢
      split at h
      · cases h
      · rename_i hcond
        rw [if_neg hcond]
        exact h
  | succ fuel ih =>
      obtain ⟨fuel', rfl⟩ : ∃ n, fuel' = n + 1 := ⟨fuel' - 1, by omega⟩
      unfold evictWhile at h ⊢
      split at h
      · rename_i hcond
        rw [if_pos hcond]
        exact ih (by omega) h
      · rename_i hcond
        rw [if_neg hcond]
        exact h

theorem evictWhile_terminates {I : LRUCache → Prop} {cond : LRUCache → Bool}
    (hstep : ∀ s, I s → cond s = true → s.lruList ≠ [] →
      I s.evictOne ∧ s.evictOne.lruList.length < s.lruList.length)
    {s : LRUCache} (hI : I s) :
    ∃ fuel s', evictWhile cond fuel s = some s' ∧ I s' ∧
      (cond s' = false ∨ s'.lruList = []) := by
  generalize hlength : s.lruList.length = n
  induction n using Nat.strong_induction_on generalizing s with
  | _ n ih =>
      by_cases hgoes : (cond s && !s.lruList.isEmpty) = true
      · obtain ⟨hcond, hne⟩ : cond s = true ∧ s.lruList ≠ [] := by simpa using hgoes
        obtain ⟨hI', hshorter⟩ := hstep s hI hcond hne
        obtain ⟨fuel, s', hrun, hresult⟩ :=
          ih s.evictOne.lruList.length (hlength ▸ hshorter) hI' rfl
        refine ⟨fuel + 1, s', ?_, hresult⟩
        unfold evictWhile
        rw [if_pos hgoes]
        exact hrun
      · refine ⟨0, s, ?_, hI, ?_⟩
        · unfold evictWhile
          rw [if_neg hgoes]
        · simpa [imp_iff_not_or] using hgoes

/-! ## Evictions under the invariant -/

theorem lruList_evictKey {s : LRUCache} (h : s.WellFormed) (key : Bytes) :
    (s.evictKey key).lruList = s.listWithout key := by
  have hlist := (unlink_spec h key).1
  unfold evictKey
  simp only
  split <;> exact hlist

theorem clock_evictKey (s : LRUCache) (key : Bytes) :
    (s.evictKey key).clock = s.clock ∧ (s.evictKey key).ticks = s.ticks := by
  unfold evictKey unlink
  simp only
  split <;> split <;> exact ⟨rfl, rfl⟩

theorem length_listWithout {s : LRUCache} (h : s.WellFormed) {key : Bytes}
    (hkey : key ∈ s.keys) : (s.listWithout key).length + 1 = s.lruList.length := by
  have hmap : (s.listWithout key).map Prod.snd = s.keys.erase key := by
    rw [h.keysNodup.erase_eq_filter, keys, List.filter_map]
    rfl
  have hlength := congrArg List.length hmap
  have hpositive : 0 < s.keys.length := List.length_pos_of_mem hkey
  rw [List.length_map, List.length_erase_of_mem hkey] at hlength
  have hkeys : s.keys.length = s.lruList.length := List.length_map _
  omega

theorem sumValues_eq_zero {β : Type} {m : AList fun _ : Bytes => β} (f : β → Nat)
    (h : ∀ k, k ∉ m) : sumValues f m = 0 := by
  have hentries : m.entries = [] := by
    apply List.eq_nil_iff_forall_not_mem.mpr
    intro e he
    exact h e.1 (List.mem_map_of_mem he)
  simp [sumValues, hentries]

structure Evicted (start s : LRUCache) : Prop where
  wellFormed : s.WellFormed
  noEmptyKey : [] ∉ s.keys
  clock : s.clock = start.clock
  config : s.config = start.config
  later : start.ticks ≤ s.ticks
  pace : s.ticks + s.lruList.length = start.ticks + start.lruList.length

theorem evicted_evictOne {start s : LRUCache} (h : Evicted start s) (hne : s.lruList ≠ []) :
    Evicted start s.evictOne ∧ s.evictOne.lruList.length < s.lruList.length := by
  obtain ⟨key, hkey, hone, -⟩ := evictOne_spec hne h.noEmptyKey
  have hlist : s.evictOne.lruList = s.listWithout key := by
    rw [hone]
    exact lruList_evictKey (wellFormed_ticks h.wellFormed _) key
  have hclock := clock_evictKey { s with ticks := s.ticks + 1 } key
  have hlength := length_listWithout h.wellFormed hkey
  rw [← hone] at hclock
  refine ⟨⟨wellFormed_evictOne h.wellFormed, ?_, ?_, ?_, ?_, ?_⟩, ?_⟩
  · rw [keys, hlist]
    intro hmem
    exact h.noEmptyKey ((List.filter_sublist.map _).subset hmem)
  · rw [hclock.1]
    exact h.clock
  · rw [config_evictOne, h.config]
  · rw [hclock.2]
    exact Nat.le_succ_of_le h.later
  · have hpace := h.pace
    rw [hclock.2, hlist]
    simp only
    omega
  · rw [hlist]
    omega

/-! ## The new entry stays -/

/-- Any two clock readings the call may take are less than the protection
period apart, the later one not behind the earlier. -/
def ClockSteady (s : LRUCache) : Prop :=
  ∀ i j, s.ticks ≤ i → i ≤ j → j ≤ s.ticks + s.lruList.length + 1 →
    s.clock j - s.clock i < s.config.evictionProtectionSec

/-- A new entry of the given size will survive its own `put`: it fits beside
everything else below the eviction threshold, or it is itself within the target
and eviction proceeds in order. -/
def Retainable (s : LRUCache) (size : Nat) : Prop :=
  (s.currentSize + size ≤ s.config.maxCapacity ∧
    usageAbove s.config (s.currentSize + size) evictionThreshold = false) ∨
  (size ≤ s.config.maxCapacity ∧ [] ∉ s.keys ∧
    usageAbove s.config size evictionTarget = false ∧ s.ClockSteady)

/-- During the second eviction: the new entry is in front of the list and was
stamped at clock reading `born`. -/
structure InFront (start : LRUCache) (born : Nat) (key data : Bytes) (s : LRUCache) :
    Prop where
  evicted : Evicted start s
  front : ∃ node rest, s.lruList = (node, key) :: rest
  chunk : ∃ c, s.cache.lookup key = some c ∧ c.data = data ∧ c.lastAccessTime = s.clock born

theorem currentSize_of_alone {s : LRUCache} (h : s.WellFormed) {key : Bytes} {node : Nat}
    {c : Chunk} (hlist : s.lruList = [(node, key)]) (hchunk : s.cache.lookup key = some c) :
    s.currentSize = c.size := by
  have hsum : sumValues Chunk.size (s.cache.erase key) + c.size = sumValues Chunk.size s.cache :=
    sumValues_erase hchunk
  have hrest : sumValues Chunk.size (s.cache.erase key) = 0 := by
    apply sumValues_eq_zero
    intro k hk
    rw [AList.mem_erase, h.cached, keys, hlist] at hk
    simp at hk
  have hsize := h.size
  omega

theorem inFront_evictOne {start s : LRUCache} {born : Nat} {key data : Bytes}
    (h : InFront start born key data s)
    (hprotected : s.clock s.ticks - s.clock born < s.config.evictionProtectionSec)
    (hmore : 2 ≤ s.lruList.length) :
    InFront start born key data s.evictOne ∧ s.evictOne.lruList.length < s.lruList.length := by
  obtain ⟨node, rest, hlist⟩ := h.front
  obtain ⟨c, hchunk, hdata, hborn⟩ := h.chunk
  have hne : s.lruList ≠ [] := by
    rw [hlist]
    simp
  obtain ⟨hevicted, hshorter⟩ := evicted_evictOne h.evicted hne
  obtain ⟨victim, hvictim, hone, hwhich⟩ := evictOne_spec hne h.evicted.noEmptyKey
  have hother : victim ≠ key := by
    rintro rfl
    rcases hwhich with hlast | ⟨c', hchunk', hfree⟩
    · -- The oldest key is not the newest one: there are at least two.
      obtain ⟨e, rest', hrest⟩ : ∃ e rest', rest = e :: rest' := by
        cases rest with
        | nil =>
            rw [hlist] at hmore
            simp at hmore
        | cons e rest' => exact ⟨e, rest', rfl⟩
      have hnodup := h.evicted.wellFormed.keysNodup
      rw [keys, hlist, List.map_cons] at hnodup hlast
      rw [hrest, List.map_cons, List.getLast?_cons_cons] at hlast
      rw [List.nodup_cons, hrest, List.map_cons] at hnodup
      exact hnodup.1 (List.mem_of_getLast? hlast)
    · rw [hchunk] at hchunk'
      cases hchunk'
      apply hfree
      rw [hborn]
      exact hprotected
  refine ⟨⟨hevicted, ⟨node, rest.filter fun entry => entry.2 != victim, ?_⟩, c, ?_, hdata, ?_⟩,
    hshorter⟩
  · rw [hone, lruList_evictKey (wellFormed_ticks h.evicted.wellFormed _), listWithout, hlist]
    exact List.filter_cons_of_pos (bne_iff_ne.mpr hother.symm)
  · rw [hone, cache_evictKey, AList.lookup_erase_ne hother.symm]
    exact hchunk
  · rw [hborn, hone, (clock_evictKey _ victim).1]

/-- One round of the second eviction, with the clock condition that the whole
call has. -/
theorem inFront_step {start s : LRUCache} {born : Nat} {key data : Bytes}
    (h : InFront start born key data s)
    (htarget : usageAbove start.config data.length evictionTarget = false)
    (hsteady : ∀ j, start.ticks ≤ j → j + 2 ≤ start.ticks + start.lruList.length →
      start.clock j - start.clock born < start.config.evictionProtectionSec)
    (hcond : s.aboveTarget = true) :
    InFront start born key data s.evictOne ∧ s.evictOne.lruList.length < s.lruList.length := by
  obtain ⟨node, rest, hlist⟩ := h.front
  obtain ⟨c, hchunk, hdata, -⟩ := h.chunk
  have hmore : 2 ≤ s.lruList.length := by
    cases rest with
    | nil =>
        -- Alone, the entry is within the target and the loop has ended.
        rw [aboveTarget, currentSize_of_alone h.evicted.wellFormed hlist hchunk, Chunk.size,
          hdata, h.evicted.config, htarget] at hcond
        cases hcond
    | cons e rest => simp [hlist]
  have hpace := h.evicted.pace
  have hprotected : s.clock s.ticks - s.clock born < s.config.evictionProtectionSec := by
    rw [h.evicted.clock, h.evicted.config]
    exact hsteady s.ticks h.evicted.later (by omega)
  exact inFront_evictOne h hprotected hmore

theorem maybeEvict_keeps {s : LRUCache} {born : Nat} {key data : Bytes}
    (h : InFront s born key data s)
    (htarget : usageAbove s.config data.length evictionTarget = false)
    (hsteady : ∀ j, s.ticks ≤ j → j + 2 ≤ s.ticks + s.lruList.length →
      s.clock j - s.clock born < s.config.evictionProtectionSec) :
    ∃ fuel s', maybeEvict fuel s = some s' ∧ s'.dataOf key = some data := by
  have hkept : ∀ s', InFront s born key data s' → s'.dataOf key = some data := by
    rintro s' ⟨-, -, c, hchunk, rfl, -⟩
    simp [dataOf, hchunk]
  by_cases habove : usageAbove s.config s.currentSize evictionThreshold = true
  · have hstep : ∀ t, InFront s born key data t → t.aboveTarget = true → t.lruList ≠ [] →
        InFront s born key data t.evictOne ∧ t.evictOne.lruList.length < t.lruList.length :=
      fun t ht hcond _ => inFront_step ht htarget hsteady hcond
    obtain ⟨fuel, s', hrun, hfront, -⟩ := evictWhile_terminates hstep h
    refine ⟨fuel, s', ?_, hkept s' hfront⟩
    rw [maybeEvict, if_pos habove]
    exact hrun
  · refine ⟨0, s, ?_, hkept s h⟩
    rw [maybeEvict, if_neg habove]

theorem maybeEvict_mono {fuel fuel' : Nat} {s s' : LRUCache} (hle : fuel ≤ fuel')
    (h : maybeEvict fuel s = some s') : maybeEvict fuel' s = some s' := by
  unfold maybeEvict at h ⊢
  split at h
  · rename_i habove
    rw [if_pos habove]
    exact evictWhile_mono hle h
  · rename_i habove
    rw [if_neg habove]
    exact h

theorem evicted_refl {s : LRUCache} (h : s.WellFormed) (hempty : [] ∉ s.keys) : Evicted s s :=
  ⟨h, hempty, rfl, rfl, Nat.le_refl _, rfl⟩

theorem evictWhile_returns {s : LRUCache} (h : s.WellFormed) (hempty : [] ∉ s.keys)
    (cond : LRUCache → Bool) :
    ∃ fuel s', evictWhile cond fuel s = some s' ∧ Evicted s s' := by
  obtain ⟨fuel, s', hrun, hevicted, -⟩ := evictWhile_terminates (I := Evicted s)
    (fun t ht (_ : cond t = true) hne => evicted_evictOne ht hne) (evicted_refl h hempty)
  exact ⟨fuel, s', hrun, hevicted⟩

theorem inFront_insertNew {room : LRUCache} {key data : Bytes} (h : room.WellFormed)
    (hempty : [] ∉ room.keys) (hkey : key ≠ []) (hnew : key ∉ room.cache) :
    InFront (room.insertNew key data) room.ticks key data (room.insertNew key data) where
  evicted := by
    refine ⟨wellFormed_insertNew h data hnew, ?_, rfl, rfl, Nat.le_refl _, rfl⟩
    intro hmem
    rcases List.mem_cons.mp hmem with heq | hold
    · exact hkey heq.symm
    · exact hempty hold
  front := ⟨room.nextNode, room.lruList, rfl⟩
  chunk := by
    refine ⟨_, AList.lookup_insert _, rfl, rfl⟩

/-- `put` of a new key keeps its entry when the entry is retainable. -/
theorem put_retains {s : LRUCache} {key data : Bytes} (h : s.WellFormed) (hkey : key ≠ [])
    (hnone : s.cache.lookup key = none) (hretain : s.Retainable data.length) :
    ∃ fuel s', s.put fuel key data = some (true, s') ∧ s'.dataOf key = some data := by
  rcases hretain with ⟨hfits, hbelow⟩ | ⟨hfits, hempty, htarget, hsteady⟩
  · refine ⟨0, s.insertNew key data, ?_, dataOf_insertNew_same s key data⟩
    have hroom : evictWhile (overflowsWith data.length) 0 s = some s := by
      unfold evictWhile overflowsWith
      rw [if_neg]
      simp
      omega
    have hcheck : maybeEvict 0 (s.insertNew key data) = some (s.insertNew key data) := by
      rw [maybeEvict, if_neg]
      exact Bool.not_eq_true _ ▸ hbelow
    unfold put
    rw [if_neg (by omega), hnone]
    simp [hroom, hcheck]
  · obtain ⟨fuel, room, hroom, hevicted⟩ :=
      evictWhile_returns h hempty (overflowsWith data.length)
    have hnew := notMem_cache_of_shrinks (shrinks_evictWhile hroom) hnone
    have hfront : InFront (room.insertNew key data) room.ticks key data (room.insertNew key data) :=
      inFront_insertNew hevicted.wellFormed hevicted.noEmptyKey hkey hnew
    have hsteadyRoom : ∀ j, room.ticks + 2 ≤ j →
        j + 2 ≤ room.ticks + 2 + (room.lruList.length + 1) →
        room.clock j - room.clock room.ticks < room.config.evictionProtectionSec := by
      intro j hfrom hto
      have hpace := hevicted.pace
      rw [hevicted.clock, hevicted.config]
      exact hsteady room.ticks j hevicted.later (by omega) (by omega)
    rw [← hevicted.config] at htarget
    obtain ⟨fuel', s', hevict, hdata⟩ := maybeEvict_keeps hfront htarget hsteadyRoom
    refine ⟨max fuel fuel', s', ?_, hdata⟩
    unfold put
    rw [if_neg (by omega), hnone]
    simp [evictWhile_mono (le_max_left fuel fuel') hroom,
      maybeEvict_mono (le_max_right fuel fuel') hevict]

end ElioP2P.Cache.LRUCache
