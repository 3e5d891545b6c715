import ElioP2P.Cache.Proofs.LRUHistory

/-!
# The statistics of the LRU cache

`total_items` and `total_bytes` are counted up by an insertion and down by
`remove`, but neither an eviction nor the replacement of a chunk adjusts them.
They mirror the contents along a run exactly if no call of it evicts anything
and every replacement is by data of the same size.
-/

namespace ElioP2P.Cache.LRUCache

open ElioP2P.Library

/-- What `stats` reports is what the cache holds. -/
def Mirrors (s : LRUCache) : Prop :=
  let stats := s.readStats.1
  stats.totalItems.toNat = s.cache.entries.length ∧
    stats.totalBytes.toNat = sumValues Chunk.size s.cache ∧
    stats.hotItems.toNat + stats.warmItems.toNat + stats.coldItems.toNat = stats.totalItems.toNat

instance (s : LRUCache) : Decidable s.Mirrors := inferInstanceAs (Decidable (_ ∧ _ ∧ _))

def evictionDue (config : LRUConfig) (size : Nat) : Bool :=
  usageAbove config size evictionThreshold && usageAbove config size evictionTarget

/-- The call evicts nothing, and replaces nothing by data of another size. -/
def Counted (s : LRUCache) : Call → Prop
  | .op (.put key data) => data.length ≤ s.config.maxCapacity →
      match s.cache.lookup key with
      | some old => old.size = data.length
      | none => s.currentSize + data.length ≤ s.config.maxCapacity ∧
          evictionDue s.config (s.currentSize + data.length) = false
  | .op .maybeEvict => evictionDue s.config s.currentSize = true → s.lruList = []
  | .op .evictToTarget => usageAbove s.config s.currentSize evictionTarget = true → s.lruList = []
  | _ => True

instance (s : LRUCache) : ∀ c, Decidable (s.Counted c)
  | .op (.put key data) =>
      match hold : s.cache.lookup key with
      | some old => decidable_of_iff
          (data.length ≤ s.config.maxCapacity → old.size = data.length) (by simp [Counted, hold])
      | none => decidable_of_iff
          (data.length ≤ s.config.maxCapacity →
            s.currentSize + data.length ≤ s.config.maxCapacity ∧
              evictionDue s.config (s.currentSize + data.length) = false) (by simp [Counted, hold])
  | .op .maybeEvict =>
      inferInstanceAs (Decidable (evictionDue s.config s.currentSize = true → s.lruList = []))
  | .op .evictToTarget => inferInstanceAs (Decidable
      (usageAbove s.config s.currentSize evictionTarget = true → s.lruList = []))
  | .op (.get _) | .op (.remove _) | .op .clear | .op (.updateChunkMetadata _ _ _) | .stats
  | .setHeatThresholds _ _ => inferInstanceAs (Decidable True)

def Countable (s : LRUCache) : Prop := s.lruList.length + 1 < 2 ^ 64

instance (s : LRUCache) : Decidable s.Countable := inferInstanceAs (Decidable (_ < _))

/-! ## What is counted -/

theorem length_entries {s : LRUCache} (h : s.WellFormed) :
    s.cache.entries.length = s.lruList.length := by
  have hkeys : s.cache.keys.Perm s.keys := by
    rw [List.perm_ext_iff_of_nodup s.cache.keys_nodup h.keysNodup]
    intro key
    exact AList.mem_keys.symm.trans (h.cached key)
  have hlength := hkeys.length_eq
  rwa [keys, List.length_map, AList.keys, List.keys, List.length_map] at hlength

theorem countHeat_sum (s : LRUCache) :
    s.countHeat .hot + s.countHeat .warm + s.countHeat .cold = s.cache.entries.length := by
  unfold countHeat
  induction s.cache.entries with
  | nil => rfl
  | cons e entries ih =>
      simp only [List.countP_cons, List.length_cons]
      cases e.2.heatLevel <;> simp <;> omega

theorem length_updateHeatCounts (s : LRUCache) :
    s.updateHeatCounts.cache.entries.length = s.cache.entries.length := by
  simp [updateHeatCounts, mapValues, currentTime]

theorem heatItems_readStats (s : LRUCache) :
    s.readStats.1.hotItems = UInt64.ofNat (s.updateHeatCounts.countHeat .hot) ∧
      s.readStats.1.warmItems = UInt64.ofNat (s.updateHeatCounts.countHeat .warm) ∧
      s.readStats.1.coldItems = UInt64.ofNat (s.updateHeatCounts.countHeat .cold) :=
  ⟨rfl, rfl, rfl⟩

def Balanced (s : LRUCache) : Prop :=
  s.stats.totalItems.toNat = s.lruList.length ∧ s.stats.totalBytes.toNat = s.currentSize

theorem mirrors_iff {s : LRUCache} (h : s.WellFormed) : s.Mirrors ↔ s.Balanced := by
  have hitems : s.readStats.1.totalItems = s.stats.totalItems := rfl
  have hbytes : s.readStats.1.totalBytes = s.stats.totalBytes := rfl
  unfold Mirrors Balanced
  simp only [hitems, hbytes, length_entries h, ← h.size]
  constructor
  · rintro ⟨htotal, hsum, -⟩
    exact ⟨htotal, hsum⟩
  · rintro ⟨htotal, hsum⟩
    refine ⟨htotal, hsum, ?_⟩
    -- The heat counts add up to a number that does not wrap.
    have hcount := countHeat_sum s.updateHeatCounts
    rw [length_updateHeatCounts, length_entries h, ← htotal] at hcount
    have hlt : s.stats.totalItems.toNat < 2 ^ 64 := s.stats.totalItems.toNat_lt
    obtain ⟨hhot, hwarm, hcold⟩ := heatItems_readStats s
    rw [hhot, hwarm, hcold, UInt64.toNat_ofNat_of_lt' (by rw [UInt64.size]; omega),
      UInt64.toNat_ofNat_of_lt' (by rw [UInt64.size]; omega),
      UInt64.toNat_ofNat_of_lt' (by rw [UInt64.size]; omega)]
    exact hcount

/-! ## Evictions are not counted -/

theorem totals_unlink (s : LRUCache) (key : Bytes) : (s.unlink key).stats = s.stats := by
  unfold unlink
  split <;> rfl

theorem totals_evictOne (s : LRUCache) :
    s.evictOne.stats.totalItems = s.stats.totalItems ∧
      s.evictOne.stats.totalBytes = s.stats.totalBytes := by
  have hselect : s.selectEvictionTarget.2.stats = s.stats := by
    unfold selectEvictionTarget
    split <;> rfl
  have hkey : ∀ (t : LRUCache) (key : Bytes),
      (t.evictKey key).stats.totalItems = t.stats.totalItems ∧
        (t.evictKey key).stats.totalBytes = t.stats.totalBytes := by
    intro t key
    unfold evictKey
    simp only
    split <;> simp [totals_unlink]
  unfold evictOne
  simp only
  split
  · exact ⟨rfl, rfl⟩
  · split
    · simp [hselect]
    · simpa [hselect] using hkey s.selectEvictionTarget.2 s.selectEvictionTarget.1

theorem totals_evictWhile {cond : LRUCache → Bool} {fuel : Nat} {s s' : LRUCache}
    (hrun : evictWhile cond fuel s = some s') :
    s'.stats.totalItems = s.stats.totalItems ∧ s'.stats.totalBytes = s.stats.totalBytes := by
  refine evictWhile_invariant (I := fun t => t.stats.totalItems = s.stats.totalItems ∧
    t.stats.totalBytes = s.stats.totalBytes) ?_ ⟨rfl, rfl⟩ hrun
  rintro t ⟨hitems, hbytes⟩
  obtain ⟨hitems', hbytes'⟩ := totals_evictOne t
  exact ⟨hitems'.trans hitems, hbytes'.trans hbytes⟩

/-- An eviction takes something away, unless it meets the empty key: then the
list and the size stay. -/
theorem evictOne_stays_or_shortens {s : LRUCache} (h : s.WellFormed) :
    (s.evictOne.lruList = s.lruList ∧ s.evictOne.currentSize = s.currentSize) ∨
      s.evictOne.lruList.length < s.lruList.length := by
  by_cases hne : s.lruList = []
  · left
    unfold evictOne
    rw [if_pos (by simpa using hne)]
    exact ⟨rfl, rfl⟩
  · obtain ⟨key, hkey, hselect, -⟩ := selectEvictionTarget_spec hne
    unfold evictOne
    rw [if_neg (by simpa using hne), hselect]
    simp only
    split
    · exact Or.inl ⟨rfl, rfl⟩
    · right
      rw [lruList_evictKey (wellFormed_ticks h _)]
      exact Nat.lt_of_succ_le (Nat.le_of_eq (length_listWithout h hkey))

/-- A loop over a condition on the size does nothing at all, or takes at least
one entry away before it ends. -/
theorem evictWhile_idle_or_shortens {cond : LRUCache → Bool}
    (hcond : ∀ s t : LRUCache, t.config = s.config → t.currentSize = s.currentSize →
      cond t = cond s)
    {fuel : Nat} {s s' : LRUCache} (h : s.WellFormed) (hrun : evictWhile cond fuel s = some s') :
    ((cond s = true → s.lruList = []) ∧ s' = s) ∨
      (¬ (cond s = true → s.lruList = []) ∧ s'.lruList.length < s.lruList.length) := by
  by_cases hidle : cond s = true → s.lruList = []
  · refine Or.inl ⟨hidle, ?_⟩
    unfold evictWhile at hrun
    rw [if_neg (by simpa using hidle)] at hrun
    exact (Option.some.inj hrun).symm
  · refine Or.inr ⟨hidle, ?_⟩
    have hcases : s'.WellFormed ∧ s'.config = s.config ∧
        ((s'.lruList = s.lruList ∧ s'.currentSize = s.currentSize) ∨
          s'.lruList.length < s.lruList.length) := by
      refine evictWhile_invariant (I := fun t => t.WellFormed ∧ t.config = s.config ∧
        ((t.lruList = s.lruList ∧ t.currentSize = s.currentSize) ∨
          t.lruList.length < s.lruList.length)) ?_ ⟨h, rfl, Or.inl ⟨rfl, rfl⟩⟩ hrun
      rintro t ⟨hwf, hconfig, hlength⟩
      refine ⟨wellFormed_evictOne hwf, (config_evictOne t).trans hconfig, ?_⟩
      rcases evictOne_stays_or_shortens hwf with ⟨hlist, hsize⟩ | hless
      · rwa [hlist, hsize]
      · refine Or.inr ?_
        rcases hlength with ⟨hlist, -⟩ | hlength
        · rwa [hlist] at hless
        · omega
    obtain ⟨-, hconfig, ⟨hlist, hsize⟩ | hless⟩ := hcases
    · -- The loop has not ended: its condition still holds.
      exfalso
      apply hidle
      intro habove
      rcases evictWhile_ended hrun with hfalse | hnil
      · rw [hcond s s' hconfig hsize, habove] at hfalse
        cases hfalse
      · rw [← hlist, hnil]
    · exact hless

theorem aboveTarget_congr (s t : LRUCache) (hconfig : t.config = s.config)
    (hsize : t.currentSize = s.currentSize) : t.aboveTarget = s.aboveTarget := by
  rw [aboveTarget, aboveTarget, hconfig, hsize]

theorem maybeEvict_idle_or_shortens {fuel : Nat} {s s' : LRUCache} (h : s.WellFormed)
    (hrun : maybeEvict fuel s = some s') :
    ((evictionDue s.config s.currentSize = true → s.lruList = []) ∧ s' = s) ∨
      (¬ (evictionDue s.config s.currentSize = true → s.lruList = []) ∧
        s'.lruList.length < s.lruList.length) := by
  unfold maybeEvict at hrun
  unfold evictionDue
  split at hrun
  · rename_i habove
    simp only [habove, Bool.true_and]
    exact evictWhile_idle_or_shortens aboveTarget_congr h hrun
  · rename_i hbelow
    cases hrun
    simp [hbelow]

theorem totals_maybeEvict {fuel : Nat} {s s' : LRUCache} (hrun : maybeEvict fuel s = some s') :
    s'.stats.totalItems = s.stats.totalItems ∧ s'.stats.totalBytes = s.stats.totalBytes := by
  unfold maybeEvict at hrun
  split at hrun
  · exact totals_evictWhile hrun
  · cases hrun
    exact ⟨rfl, rfl⟩

theorem balanced_pass {s s' : LRUCache} {idle : Prop} (hs : s.Balanced)
    (htotals : s'.stats.totalItems = s.stats.totalItems ∧ s'.stats.totalBytes = s.stats.totalBytes)
    (hpass : (idle ∧ s' = s) ∨ (¬ idle ∧ s'.lruList.length < s.lruList.length)) :
    idle ↔ s'.Balanced := by
  rcases hpass with ⟨hidle, rfl⟩ | ⟨hbusy, hless⟩
  · exact iff_of_true hidle hs
  · refine iff_of_false hbusy fun hs' => ?_
    have hitems := hs'.1
    rw [htotals.1, hs.1] at hitems
    omega

/-! ## Each call -/

theorem length_touch {s : LRUCache} (h : s.WellFormed) (key : Bytes) :
    (s.touch key).lruList.length = s.lruList.length := by
  by_cases hkey : key ∈ s.keys
  · rw [(touch_spec h hkey).1, List.length_cons, length_listWithout h hkey]
  · unfold touch
    rw [lookup_lruMap_eq_none h hkey]

theorem stats_touch (s : LRUCache) (key : Bytes) : (s.touch key).stats = s.stats := by
  unfold touch
  split <;> rfl

theorem balanced_get {s : LRUCache} (h : s.WellFormed) (hs : s.Balanced) (key : Bytes) :
    (s.get key).2.Balanced := by
  have hlength : (s.get key).2.lruList.length = s.lruList.length := by
    unfold get
    split
    · rfl
    · exact length_touch h key
  have htotals : (s.get key).2.stats.totalItems = s.stats.totalItems ∧
      (s.get key).2.stats.totalBytes = s.stats.totalBytes := by
    unfold get
    split
    · exact ⟨rfl, rfl⟩
    · simp [currentTime, stats_touch]
  rw [Balanced, htotals.1, htotals.2, hlength, currentSize_get]
  exact hs

theorem balanced_remove {s : LRUCache} (h : s.WellFormed) (hs : s.Balanced) (key : Bytes) :
    (s.remove key).2.Balanced := by
  unfold remove
  split
  · exact hs
  · rename_i chunk hchunk
    have hsize := size_le_currentSize h hchunk
    have hkey : key ∈ s.keys := (h.cached key).mp (mem_cache_of_lookup hchunk)
    have hlength := length_listWithout h hkey
    have hlt := s.stats.totalBytes.toNat_lt
    have hbytes := hs.2
    have hitems := hs.1
    have hofNat : (UInt64.ofNat chunk.size).toNat = chunk.size :=
      UInt64.toNat_ofNat_of_lt' (by rw [UInt64.size]; omega)
    simp only [unlink_setSize, Balanced, (unlink_spec h key).1, sub64_of_le hsize]
    constructor
    · rw [UInt64.toNat_sub_of_le _ _ (UInt64.le_iff_toNat_le.mpr (by rw [hitems]; simp; omega)),
        hitems]
      simp
      omega
    · rw [UInt64.toNat_sub_of_le _ _ (UInt64.le_iff_toNat_le.mpr (by omega)), hofNat, hbytes]

theorem balanced_updateChunkMetadata {s : LRUCache} (hs : s.Balanced) (key : Bytes)
    (replicaCount : UInt32) (heatLevel : HeatLevel) :
    (s.updateChunkMetadata key replicaCount heatLevel).Balanced := by
  unfold updateChunkMetadata
  split <;> exact hs

theorem balanced_insertNew {s : LRUCache} {data : Bytes} (hs : s.Balanced) (hcount : s.Countable)
    (hbytes : s.currentSize + data.length < 2 ^ 64) (key : Bytes) :
    (s.insertNew key data).Balanced := by
  have hitems : (s.insertNew key data).stats.totalItems = s.stats.totalItems + 1 := rfl
  have hsum : (s.insertNew key data).stats.totalBytes =
      s.stats.totalBytes + UInt64.ofNat data.length := rfl
  have hofNat : (UInt64.ofNat data.length).toNat = data.length :=
    UInt64.toNat_ofNat_of_lt' (by rw [UInt64.size]; omega)
  rw [Countable] at hcount
  rw [Balanced, hitems, hsum, UInt64.toNat_add, UInt64.toNat_add, hofNat, hs.1, hs.2]
  refine ⟨?_, Nat.mod_eq_of_lt hbytes⟩
  exact Nat.mod_eq_of_lt hcount

theorem balanced_replaced {s : LRUCache} {key : Bytes} (data : Bytes) {old : Chunk}
    (h : s.WellFormed) (hs : s.Balanced) (hold : s.cache.lookup key = some old) :
    old.size = data.length ↔ ((s.replaced key data old).touch key).Balanced := by
  have hstats : (s.replaced key data old).stats = s.stats := rfl
  have hlist : (s.replaced key data old).lruList = s.lruList := rfl
  have hsize : (s.replaced key data old).currentSize =
      sub64 s.currentSize old.size + data.length := rfl
  have hle := size_le_currentSize h hold
  rw [Balanced, stats_touch, hstats, length_touch (wellFormed_replaced data h hold), hlist,
    currentSize_touch, hsize, sub64_of_le hle, hs.1, hs.2]
  omega

/-- Where an entry had to go for the new one, an entry too many is counted. -/
theorem not_balanced_of_evicted {fuel : Nat} {s room s' : LRUCache} {key data : Bytes}
    (h : room.WellFormed) (hs : s.Balanced) (hcount : s.Countable) (hnew : key ∉ room.cache)
    (hroom : evictWhile (overflowsWith data.length) fuel s = some room)
    (hless : room.lruList.length < s.lruList.length)
    (hevict : maybeEvict fuel (room.insertNew key data) = some s') : ¬ s'.Balanced := by
  intro hs'
  have hlength : (room.insertNew key data).lruList.length = room.lruList.length + 1 := rfl
  have hle : s'.lruList.length ≤ room.lruList.length + 1 := by
    rcases maybeEvict_idle_or_shortens (wellFormed_insertNew h data hnew) hevict with
      ⟨-, rfl⟩ | ⟨-, hless'⟩
    · exact Nat.le_of_eq hlength
    · omega
  have hadded : (room.insertNew key data).stats.totalItems = room.stats.totalItems + 1 := rfl
  have hone : (s.stats.totalItems + 1).toNat = s.lruList.length + 1 := by
    rw [UInt64.toNat_add, hs.1]
    exact Nat.mod_eq_of_lt hcount
  have hitems := hs'.1
  rw [(totals_maybeEvict hevict).1, hadded, (totals_evictWhile hroom).1, hone] at hitems
  omega

/-- Putting a new key counts one item.  That is right exactly if nothing has to
go for it, before or after the insertion. -/
theorem balanced_put_new {fuel : Nat} {s room s' : LRUCache} {key data : Bytes}
    (h : s.WellFormed) (hcapacity : s.config.maxCapacity < 2 ^ 64) (hs : s.Balanced)
    (hcount : s.Countable) (hfits : data.length ≤ s.config.maxCapacity)
    (hnone : s.cache.lookup key = none)
    (hroom : evictWhile (overflowsWith data.length) fuel s = some room)
    (hevict : maybeEvict fuel (room.insertNew key data) = some s') :
    (s.currentSize + data.length ≤ s.config.maxCapacity ∧
        evictionDue s.config (s.currentSize + data.length) = false) ↔ s'.Balanced := by
  have hnew := notMem_cache_of_shrinks (shrinks_evictWhile hroom) hnone
  have hwf := wellFormed_evictWhile h hroom
  have hcond : ∀ t u : LRUCache, u.config = t.config → u.currentSize = t.currentSize →
      overflowsWith data.length u = overflowsWith data.length t := by
    intro t u hconfig hsize
    rw [overflowsWith, overflowsWith, hconfig, hsize]
  rcases evictWhile_idle_or_shortens hcond h hroom with ⟨hidle, rfl⟩ | ⟨hbusy, hless⟩
  · have hroomy : room.currentSize + data.length ≤ room.config.maxCapacity := by
      by_cases hover : overflowsWith data.length room = true
      · rw [currentSize_of_lruList_nil h (hidle hover)]
        omega
      · simpa [overflowsWith] using hover
    have hbalanced : (room.insertNew key data).Balanced :=
      balanced_insertNew hs hcount (by omega) key
    have hdue : (evictionDue room.config (room.currentSize + data.length) = true →
        (room.insertNew key data).lruList = []) ↔
          evictionDue room.config (room.currentSize + data.length) = false := by
      have hne : (room.insertNew key data).lruList ≠ [] := List.cons_ne_nil _ _
      simp [hne]
    rw [and_iff_right hroomy, ← hdue]
    exact balanced_pass hbalanced (totals_maybeEvict hevict)
      (maybeEvict_idle_or_shortens (wellFormed_insertNew hwf data hnew) hevict)
  · refine iff_of_false ?_ (not_balanced_of_evicted hwf hs hcount hnew hroom hless hevict)
    rintro ⟨hroomy, -⟩
    apply hbusy
    intro hover
    rw [overflowsWith, decide_eq_true_eq] at hover
    omega

theorem balanced_put_iff {fuel : Nat} {s s' : LRUCache} {key data : Bytes} {ok : Bool}
    (h : s.WellFormed) (hcapacity : s.config.maxCapacity < 2 ^ 64) (hs : s.Balanced)
    (hcount : s.Countable) (hput : s.put fuel key data = some (ok, s')) :
    s.Counted (.op (.put key data)) ↔ s'.Balanced := by
  unfold Counted
  rcases put_cases hput with ⟨hbig, -, rfl⟩ | ⟨hfits, -, old, hold, rfl⟩ |
    ⟨hfits, -, hnone, room, hroom, hevict⟩
  · exact iff_of_true (fun hfits => absurd hfits (by omega)) hs
  · simp only [hfits, true_implies, hold]
    exact balanced_replaced data h hs hold
  · simp only [hfits, true_implies, hnone]
    exact balanced_put_new h hcapacity hs hcount hfits hnone hroom hevict

/-! ## The two calls about heat -/

theorem wellFormed_readStats {s : LRUCache} (h : s.WellFormed) : s.readStats.2.WellFormed where
  keysNodup := h.keysNodup
  nodesNodup := h.nodesNodup
  nodesOld := h.nodesOld
  linked := h.linked
  cached key := by
    have hkeys : s.readStats.2.cache.keys = s.cache.keys := keys_mapValues _ s.cache
    refine Iff.trans ?_ (h.cached key)
    rw [AList.mem_keys, AList.mem_keys, hkeys]
  size := by
    refine h.size.trans (sumValues_mapValues (f := Chunk.size) ?_ s.cache).symm
    exact fun _ _ => rfl

theorem wellFormed_call {fuel : Nat} {s s' : LRUCache} {c : Call} (h : s.WellFormed)
    (hcall : s.call fuel c = some s') : s'.WellFormed := by
  cases c with
  | op op => exact wellFormed_apply h hcall
  | stats =>
      cases hcall
      exact wellFormed_readStats h
  | setHeatThresholds hotThreshold warmThreshold =>
      cases hcall
      exact ⟨h.keysNodup, h.nodesNodup, h.nodesOld, h.linked, h.cached, h.size⟩

theorem maxCapacity_call {fuel : Nat} {s s' : LRUCache} {c : Call}
    (hcall : s.call fuel c = some s') : s'.config.maxCapacity = s.config.maxCapacity := by
  cases c with
  | op op => rw [config_apply hcall]
  | stats =>
      cases hcall
      rfl
  | setHeatThresholds hotThreshold warmThreshold =>
      cases hcall
      rfl

/-! ## Along a run -/

theorem balanced_call_iff {fuel : Nat} {s s' : LRUCache} {c : Call} (h : s.WellFormed)
    (hcapacity : s.config.maxCapacity < 2 ^ 64) (hs : s.Balanced) (hcount : s.Countable)
    (hcall : s.call fuel c = some s') : s.Counted c ↔ s'.Balanced := by
  cases c with
  | stats =>
      cases hcall
      exact iff_of_true trivial hs
  | setHeatThresholds hotThreshold warmThreshold =>
      cases hcall
      exact iff_of_true trivial hs
  | op op =>
      cases op with
      | put key data =>
          obtain ⟨ok, hput⟩ := exists_of_map_snd hcall
          exact balanced_put_iff h hcapacity hs hcount hput
      | get key =>
          cases hcall
          exact iff_of_true trivial (balanced_get h hs key)
      | remove key =>
          cases hcall
          exact iff_of_true trivial (balanced_remove h hs key)
      | clear =>
          cases hcall
          exact iff_of_true trivial ⟨rfl, rfl⟩
      | updateChunkMetadata key replicaCount heatLevel =>
          cases hcall
          exact iff_of_true trivial (balanced_updateChunkMetadata hs key replicaCount heatLevel)
      | maybeEvict =>
          exact balanced_pass hs (totals_maybeEvict hcall) (maybeEvict_idle_or_shortens h hcall)
      | evictToTarget =>
          exact balanced_pass hs (totals_evictWhile hcall)
            (evictWhile_idle_or_shortens aboveTarget_congr h hcall)

/-- Along a run of calls that return, the statistics mirror the contents in
every state exactly if every call is one that counts what it changes. -/
theorem mirrors_iff_counted {config : LRUConfig} {clock : Nat → UInt64} {fuel : Nat}
    {calls : List Call} {s : LRUCache} (hcapacity : config.maxCapacity < 2 ^ 64)
    (hrun : runSteps (call fuel) (new config clock) calls = some s)
    (hcount : EveryStep (call fuel) (fun t _ => t.Countable) (new config clock) calls) :
    (∀ front t, front <+: calls → runSteps (call fuel) (new config clock) front = some t →
        t.Mirrors) ↔ EveryStep (call fuel) Counted (new config clock) calls := by
  have hreturns := everyStep_isSome_of_runSteps hrun
  refine (everyStep_iff_forall_reached_of
    (J := fun t => t.WellFormed ∧ t.config.maxCapacity < 2 ^ 64) (I := Mirrors)
    (Q := fun t c => t.Countable ∧ (t.call fuel c).isSome = true) ?_ ?_
    ⟨wellFormed_new config clock, hcapacity⟩ ?_ (hcount.and hreturns)).symm
  · rintro t c t' ⟨hwf, hbound⟩ - hcall
    exact ⟨wellFormed_call hwf hcall, by rwa [maxCapacity_call hcall]⟩
  · rintro t c ⟨hwf, hbound⟩ ht ⟨hcountable, hsome⟩
    obtain ⟨t', hcall⟩ := Option.isSome_iff_exists.mp hsome
    have hiff := balanced_call_iff hwf hbound ((mirrors_iff hwf).mp ht) hcountable hcall
    rw [hiff, ← mirrors_iff (wellFormed_call hwf hcall), hcall]
    simp
  · exact (mirrors_iff (wellFormed_new config clock)).mpr ⟨rfl, rfl⟩

def tenBytes : LRUConfig := { float := FloatArith.ieee, maxCapacity := 10 }

def smallItems : List Call :=
  [.op (.put (ascii "a") [1]), .op (.put (ascii "b") [1, 2]), .op (.put (ascii "a") [3]),
    .op (.get (ascii "a")), .op (.get (ascii "c")), .op (.remove (ascii "a"))]

/-- Small items are counted, and the counters are right all along. -/
theorem mirrors_iff_counted_one :
    ∃ s, runSteps (call 0) (new tenBytes fun _ => 0) smallItems = some s ∧
      s.currentSize = 2 ∧ ∀ front t, front <+: smallItems →
        runSteps (call 0) (new tenBytes fun _ => 0) front = some t → t.Mirrors := by
  have hsize : ((runSteps (call 0) (new tenBytes fun _ => 0) smallItems).any fun s =>
      decide (s.currentSize = 2)) = true := by
    decide +kernel
  obtain ⟨s, hrun, hs⟩ := (Option.any_eq_true _ _).mp hsize
  exact ⟨s, hrun, of_decide_eq_true hs,
    (mirrors_iff_counted (by decide) hrun (by decide +kernel)).mpr (by decide +kernel)⟩

/-- The second of two items of half the capacity drives out the first, and both
are counted. -/
theorem not_mirrors_eviction :
    ∃ s, runSteps (call 2) (new tenBytes fun _ => 0)
        [.op (.put (ascii "a") [1, 2, 3, 4, 5]), .op (.put (ascii "b") [1, 2, 3, 4, 5])] = some s ∧
      ¬ s.Mirrors := by
  have hstats : (runSteps (call 2) (new tenBytes fun _ => 0)
      [.op (.put (ascii "a") [1, 2, 3, 4, 5]), .op (.put (ascii "b") [1, 2, 3, 4, 5])]).any
        (fun s => decide (¬ s.Mirrors)) = true := by
    decide +kernel
  obtain ⟨s, hrun, hs⟩ := (Option.any_eq_true _ _).mp hstats
  exact ⟨s, hrun, of_decide_eq_true hs⟩

end ElioP2P.Cache.LRUCache
