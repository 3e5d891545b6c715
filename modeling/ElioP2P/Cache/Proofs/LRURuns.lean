import ElioP2P.Cache.Proofs.LRURetention
import ElioP2P.Library.Runs

/-!
# Runs of the LRU cache

Three results about every sequence of calls on an empty cache: when its size
stays within the capacity, when evictions always make progress, and what its
containers and its counter say about the calls made so far.
-/

namespace ElioP2P.Cache.LRUCache

open ElioP2P.Library

/-! ## The representation invariant along runs -/

theorem wellFormed_clear (s : LRUCache) : s.clear.WellFormed where
  keysNodup := List.nodup_nil
  nodesNodup := List.nodup_nil
  nodesOld := by simp [clear]
  linked := by simp [clear]
  cached := by simp [clear, keys]
  size := rfl

theorem wellFormed_apply {fuel : Nat} {s s' : LRUCache} {op : Op} (h : s.WellFormed)
    (hop : s.apply fuel op = some s') : s'.WellFormed := by
  cases op with
  | put key data =>
      obtain ⟨⟨ok, t⟩, hput, rfl⟩ := Option.map_eq_some_iff.mp hop
      exact wellFormed_put h hput
  | get key =>
      cases hop
      exact wellFormed_get h key
  | remove key =>
      cases hop
      exact wellFormed_remove h key
  | clear =>
      cases hop
      exact wellFormed_clear s
  | updateChunkMetadata key replicaCount heatLevel =>
      cases hop
      exact wellFormed_updateChunkMetadata h key replicaCount heatLevel
  | maybeEvict => exact wellFormed_maybeEvict h hop
  | evictToTarget => exact wellFormed_evictWhile h hop

theorem config_apply {fuel : Nat} {s s' : LRUCache} {op : Op}
    (hop : s.apply fuel op = some s') : s'.config = s.config := by
  cases op with
  | put key data =>
      obtain ⟨⟨ok, t⟩, hput, rfl⟩ := Option.map_eq_some_iff.mp hop
      exact config_put hput
  | get key =>
      cases hop
      exact config_get s key
  | remove key =>
      cases hop
      exact config_remove s key
  | clear =>
      cases hop
      rfl
  | updateChunkMetadata key replicaCount heatLevel =>
      cases hop
      exact config_updateChunkMetadata s key replicaCount heatLevel
  | maybeEvict => exact (shrinks_maybeEvict hop).1
  | evictToTarget => exact (shrinks_evictWhile hop).1

/-! ## Capacity -/

theorem size_le_currentSize {s : LRUCache} (h : s.WellFormed) {key : Bytes} {chunk : Chunk}
    (hchunk : s.cache.lookup key = some chunk) : chunk.size ≤ s.currentSize := by
  have hsum : sumValues Chunk.size (s.cache.erase key) + chunk.size =
      sumValues Chunk.size s.cache :=
    sumValues_erase hchunk
  have hsize := h.size
  omega

theorem currentSize_of_lruList_nil {s : LRUCache} (h : s.WellFormed) (hnil : s.lruList = []) :
    s.currentSize = 0 := by
  rw [h.size]
  apply sumValues_eq_zero
  intro k hk
  rw [h.cached, keys, hnil] at hk
  cases hk

theorem currentSize_evictOne_le {s : LRUCache} (h : s.WellFormed) :
    s.evictOne.currentSize ≤ s.currentSize := by
  have hafter := (wellFormed_evictOne h).size
  have hbefore := h.size
  rcases cache_evictOne s with hsame | ⟨key, herase⟩
  · rw [hafter, hbefore, hsame]
  · cases hchunk : s.cache.lookup key with
    | none =>
        have hgone : s.cache.erase key = s.cache :=
          AList.ext (List.kerase_of_notMem_keys (AList.lookup_eq_none.mp hchunk))
        rw [hafter, hbefore, herase, hgone]
    | some chunk =>
        have hsum : sumValues Chunk.size (s.cache.erase key) + chunk.size =
            sumValues Chunk.size s.cache := sumValues_erase hchunk
        rw [hafter, hbefore, herase]
        omega

theorem currentSize_evictWhile_le {cond : LRUCache → Bool} {fuel : Nat} {s s' : LRUCache}
    (h : s.WellFormed) (hrun : evictWhile cond fuel s = some s') :
    s'.currentSize ≤ s.currentSize := by
  have hboth : s'.WellFormed ∧ s'.currentSize ≤ s.currentSize := by
    apply evictWhile_invariant (I := fun t => t.WellFormed ∧ t.currentSize ≤ s.currentSize) _
      ⟨h, Nat.le_refl _⟩ hrun
    rintro t ⟨ht, hle⟩
    have hstep := currentSize_evictOne_le ht
    exact ⟨wellFormed_evictOne ht, by omega⟩
  exact hboth.2

theorem currentSize_maybeEvict_le {fuel : Nat} {s s' : LRUCache} (h : s.WellFormed)
    (hrun : maybeEvict fuel s = some s') : s'.currentSize ≤ s.currentSize := by
  unfold maybeEvict at hrun
  split at hrun
  · exact currentSize_evictWhile_le h hrun
  · cases hrun
    exact Nat.le_refl _

/-- The loop goes on as long as its condition holds and something is left. -/
theorem evictWhile_ended {cond : LRUCache → Bool} {fuel : Nat} {s s' : LRUCache}
    (hrun : evictWhile cond fuel s = some s') : cond s' = false ∨ s'.lruList = [] := by
  have hend : ∀ t : LRUCache, ¬ (cond t && !t.lruList.isEmpty) = true →
      cond t = false ∨ t.lruList = [] := by
    intro t ht
    simpa [imp_iff_not_or] using ht
  induction fuel generalizing s with
  | zero =>
      unfold evictWhile at hrun
      split at hrun
      · cases hrun
      · rename_i hstop
        cases hrun
        exact hend _ hstop
  | succ fuel ih =>
      unfold evictWhile at hrun
      split at hrun
      · exact ih hrun
      · rename_i hstop
        cases hrun
        exact hend _ hstop

def WithinCapacity (s : LRUCache) : Prop := s.currentSize ≤ s.config.maxCapacity

/-- A `put` that replaces cached data fits beside everything else.  The other
calls make room themselves. -/
def ReplacementFits (s : LRUCache) : Op → Prop
  | .put key data => ∀ old, s.cache.lookup key = some old → data.length ≤ s.config.maxCapacity →
      s.currentSize - old.size + data.length ≤ s.config.maxCapacity
  | _ => True

theorem withinCapacity_insert {fuel : Nat} {s room s' : LRUCache} {key data : Bytes}
    (h : s.WellFormed) (hnone : s.cache.lookup key = none)
    (hfits : data.length ≤ s.config.maxCapacity)
    (hroom : evictWhile (overflowsWith data.length) fuel s = some room)
    (hevict : maybeEvict fuel (room.insertNew key data) = some s') : s'.WithinCapacity := by
  have hwf := wellFormed_evictWhile h hroom
  have hshrinks := shrinks_evictWhile hroom
  have hnew := wellFormed_insertNew hwf data (notMem_cache_of_shrinks hshrinks hnone)
  have hle := currentSize_maybeEvict_le hnew hevict
  have hsize : (room.insertNew key data).currentSize = room.currentSize + data.length := rfl
  have hconfig : s'.config = s.config := by
    rw [(shrinks_maybeEvict hevict).1, config_insertNew, hshrinks.1]
  have hspace : room.currentSize + data.length ≤ s.config.maxCapacity := by
    rcases evictWhile_ended hroom with hfree | hnil
    · rw [overflowsWith, hshrinks.1] at hfree
      simpa using hfree
    · rw [currentSize_of_lruList_nil hwf hnil]
      omega
  rw [WithinCapacity, hconfig]
  omega

theorem currentSize_put_replace {fuel : Nat} {s s' : LRUCache} {key data : Bytes} {ok : Bool}
    {old : Chunk} (h : s.WellFormed) (hold : s.cache.lookup key = some old)
    (hfits : data.length ≤ s.config.maxCapacity) (hput : s.put fuel key data = some (ok, s')) :
    s'.currentSize = s.currentSize - old.size + data.length := by
  rcases put_cases hput with ⟨hbig, -⟩ | ⟨-, -, replacedChunk, hlookup, rfl⟩ | ⟨-, -, hnone, -⟩
  · omega
  · cases hlookup.symm.trans hold
    rw [currentSize_touch]
    change sub64 s.currentSize old.size + data.length = _
    rw [sub64_of_le (size_le_currentSize h hold)]
  · cases hnone.symm.trans hold

theorem put_replace_returns (fuel : Nat) {s : LRUCache} {key : Bytes} (data : Bytes) {old : Chunk}
    (hold : s.cache.lookup key = some old) : ∃ ok s', s.put fuel key data = some (ok, s') := by
  unfold put
  split
  · exact ⟨_, _, rfl⟩
  · rw [hold]
    exact ⟨_, _, rfl⟩

theorem currentSize_remove_le {s : LRUCache} (h : s.WellFormed) (key : Bytes) :
    (s.remove key).2.currentSize ≤ s.currentSize := by
  unfold remove
  split
  · exact Nat.le_refl _
  · rename_i chunk hchunk
    simp only [unlink_setSize]
    rw [sub64_of_le (size_le_currentSize h hchunk)]
    omega

theorem withinCapacity_put_iff {fuel : Nat} {s : LRUCache} {key data : Bytes} (h : s.WellFormed)
    (hwithin : s.WithinCapacity) :
    ReplacementFits s (.put key data) ↔
      ∀ ok s', s.put fuel key data = some (ok, s') → s'.WithinCapacity := by
  constructor
  · intro hreplace ok s' hput
    rcases put_cases hput with ⟨-, -, rfl⟩ | ⟨hfits, -, old, hold, -⟩ |
      ⟨hfits, -, hnone, room, hroom, hevict⟩
    · exact hwithin
    · rw [WithinCapacity, config_put hput, currentSize_put_replace h hold hfits hput]
      exact hreplace old hold hfits
    · exact withinCapacity_insert h hnone hfits hroom hevict
  · intro hafter old hold hfits
    obtain ⟨ok, s', hput⟩ := put_replace_returns fuel data hold
    have hs' := hafter ok s' hput
    rwa [WithinCapacity, config_put hput, currentSize_put_replace h hold hfits hput] at hs'

theorem replacementFits_iff {fuel : Nat} {s : LRUCache} (op : Op) (h : s.WellFormed)
    (hwithin : s.WithinCapacity) :
    ReplacementFits s op ↔ ∀ s', s.apply fuel op = some s' → s'.WithinCapacity := by
  have hkeeps : ∀ s' : LRUCache, s'.config = s.config → s'.currentSize ≤ s.currentSize →
      s'.WithinCapacity := by
    intro s' hconfig hle
    rw [WithinCapacity] at hwithin ⊢
    rw [hconfig]
    omega
  cases op with
  | put key data =>
      rw [withinCapacity_put_iff h hwithin]
      constructor
      · intro hafter s' hop
        obtain ⟨ok, hput⟩ := exists_of_map_snd hop
        exact hafter ok s' hput
      · intro hafter ok s' hput
        exact hafter s' (by rw [apply, hput]; rfl)
  | get key =>
      refine iff_of_true trivial ?_
      rintro s' ⟨⟩
      exact hkeeps _ (config_get s key) (Nat.le_of_eq (currentSize_get s key))
  | remove key =>
      refine iff_of_true trivial ?_
      rintro s' ⟨⟩
      exact hkeeps _ (config_remove s key) (currentSize_remove_le h key)
  | clear =>
      refine iff_of_true trivial ?_
      rintro s' ⟨⟩
      exact hkeeps _ rfl (Nat.zero_le _)
  | updateChunkMetadata key replicaCount heatLevel =>
      refine iff_of_true trivial ?_
      rintro s' ⟨⟩
      refine hkeeps _ (config_updateChunkMetadata s key replicaCount heatLevel) ?_
      unfold updateChunkMetadata
      split <;> exact Nat.le_refl _
  | maybeEvict =>
      refine iff_of_true trivial fun s' hop => ?_
      exact hkeeps _ (shrinks_maybeEvict hop).1 (currentSize_maybeEvict_le h hop)
  | evictToTarget =>
      refine iff_of_true trivial fun s' hop => ?_
      exact hkeeps _ (shrinks_evictWhile hop).1 (currentSize_evictWhile_le h hop)

/-- Every state that a run reaches is within the capacity exactly when every
replacement in it fits. -/
theorem withinCapacity_iff_replacementFits (config : LRUConfig) (clock : Nat → UInt64) (fuel : Nat)
    (ops : List Op) :
    (∀ front s, front <+: ops → runSteps (apply fuel) (new config clock) front = some s →
        s.currentSize ≤ s.config.maxCapacity) ↔
      EveryStep (apply fuel) ReplacementFits (new config clock) ops := by
  refine (everyStep_iff_forall_reached (J := WellFormed) (I := WithinCapacity) ?_ ?_
    (wellFormed_new config clock) (Nat.zero_le _)).symm
  · intro s op s' hs hop
    exact wellFormed_apply hs hop
  · intro s op hs hwithin
    exact replacementFits_iff op hs hwithin

/-- A cache of four bytes in which one byte is replaced by four. -/
theorem exceeds_capacity_replacement :
    ∃ s, runSteps (apply 0) (new { float := FloatArith.ieee, maxCapacity := 4 } fun _ => 0)
        [.put (ascii "a") [1], .put (ascii "b") [1], .put (ascii "a") [1, 2, 3, 4]] = some s ∧
      ¬ s.currentSize ≤ s.config.maxCapacity := by
  have hsize : (runSteps (apply 0) (new { float := FloatArith.ieee, maxCapacity := 4 } fun _ => 0)
      [.put (ascii "a") [1], .put (ascii "b") [1], .put (ascii "a") [1, 2, 3, 4]]).any
        (fun s => decide (¬ s.currentSize ≤ s.config.maxCapacity)) = true := by
    decide +kernel
  obtain ⟨s, hrun, hs⟩ := (Option.any_eq_true _ _).mp hsize
  exact ⟨s, hrun, of_decide_eq_true hs⟩

/-! ## Progress of eviction -/

def Progresses (s : LRUCache) : Prop :=
  s.lruList ≠ [] → s.evictOne.lruList.length < s.lruList.length

def Op.StoresIn (config : LRUConfig) (K : Set Bytes) : Op → Prop
  | .put key data => data.length ≤ config.maxCapacity → key ∈ K
  | _ => True

theorem maybeEvict_returns {s : LRUCache} (h : s.WellFormed) (hempty : [] ∉ s.keys) :
    ∃ fuel s', maybeEvict fuel s = some s' := by
  by_cases habove : usageAbove s.config s.currentSize evictionThreshold = true
  · obtain ⟨fuel, s', hrun, -⟩ := evictWhile_returns h hempty aboveTarget
    exact ⟨fuel, s', by rw [maybeEvict, if_pos habove, hrun]⟩
  · exact ⟨0, s, by rw [maybeEvict, if_neg habove]⟩

theorem put_returns {s : LRUCache} (h : s.WellFormed) (hempty : [] ∉ s.keys) {key data : Bytes}
    (hkey : data.length ≤ s.config.maxCapacity → key ≠ []) :
    ∃ fuel r, s.put fuel key data = some r := by
  by_cases hfits : data.length ≤ s.config.maxCapacity
  · cases hold : s.cache.lookup key with
    | some old =>
        obtain ⟨ok, s', hput⟩ := put_replace_returns 0 data hold
        exact ⟨0, _, hput⟩
    | none =>
        obtain ⟨fuel, room, hroom, hevicted⟩ :=
          evictWhile_returns h hempty (overflowsWith data.length)
        have hnew := notMem_cache_of_shrinks (shrinks_evictWhile hroom) hold
        have hfront : InFront (room.insertNew key data) room.ticks key data
            (room.insertNew key data) :=
          inFront_insertNew hevicted.wellFormed hevicted.noEmptyKey (hkey hfits) hnew
        obtain ⟨fuel', s', hevict⟩ :=
          maybeEvict_returns hfront.evicted.wellFormed hfront.evicted.noEmptyKey
        refine ⟨max fuel fuel', (true, s'), ?_⟩
        unfold put
        rw [if_neg (by omega), hold]
        simp [evictWhile_mono (le_max_left fuel fuel') hroom,
          maybeEvict_mono (le_max_right fuel fuel') hevict]
  · exact ⟨0, (false, s), put_of_capacity_lt (by omega)⟩

theorem apply_returns {s : LRUCache} (h : s.WellFormed) (hempty : [] ∉ s.keys) {op : Op}
    (hop : op.StoresIn s.config { key | key ≠ [] }) : ∃ fuel s', s.apply fuel op = some s' := by
  cases op with
  | put key data =>
      obtain ⟨fuel, r, hput⟩ := put_returns h hempty hop
      exact ⟨fuel, r.2, by rw [apply, hput]; rfl⟩
  | maybeEvict => exact maybeEvict_returns h hempty
  | evictToTarget =>
      obtain ⟨fuel, s', hrun, -⟩ := evictWhile_returns h hempty aboveTarget
      exact ⟨fuel, s', hrun⟩
  | get key => exact ⟨0, _, rfl⟩
  | remove key => exact ⟨0, _, rfl⟩
  | clear => exact ⟨0, _, rfl⟩
  | updateChunkMetadata key replicaCount heatLevel => exact ⟨0, _, rfl⟩

theorem mem_keys_apply {fuel : Nat} {s s' : LRUCache} {op : Op} (h : s.WellFormed)
    (hop : s.apply fuel op = some s') {K : Set Bytes} (hstores : op.StoresIn s.config K)
    {key : Bytes} (hkey : key ∈ s'.keys) : key ∈ s.keys ∨ key ∈ K := by
  have hwf' := wellFormed_apply h hop
  rw [← hwf'.cached, ← AList.lookup_isSome, Option.isSome_iff_exists] at hkey
  obtain ⟨chunk, hchunk⟩ := hkey
  have hdata' : s'.dataOf key = some chunk.data := by simp [dataOf, hchunk]
  have hold : s.dataOf key = some chunk.data → key ∈ s.keys ∨ key ∈ K := by
    intro hdata
    obtain ⟨old, hlookup, -⟩ := Option.map_eq_some_iff.mp hdata
    exact Or.inl ((h.cached key).mp (mem_cache_of_lookup hlookup))
  cases op with
  | put k data =>
      obtain ⟨⟨ok, t⟩, hput, rfl⟩ := Option.map_eq_some_iff.mp hop
      by_cases hfits : data.length ≤ s.config.maxCapacity
      · rcases dataOf_put hput hfits hdata' with ⟨rfl, -⟩ | ⟨-, hdata⟩
        · exact Or.inr (hstores hfits)
        · exact hold hdata
      · rw [put_of_capacity_lt (by omega)] at hput
        cases hput
        exact hold hdata'
  | get k =>
      cases hop
      exact hold (by rwa [dataOf_get] at hdata')
  | remove k =>
      cases hop
      exact hold ((shrinks_remove s k).2 key _ hdata')
  | clear =>
      cases hop
      cases hdata'
  | updateChunkMetadata k replicaCount heatLevel =>
      cases hop
      exact hold (by rwa [dataOf_updateChunkMetadata] at hdata')
  | maybeEvict => exact hold ((shrinks_maybeEvict hop).2 key _ hdata')
  | evictToTarget => exact hold ((shrinks_evictWhile hop).2 key _ hdata')

/-- What keeps evictions going: no call has stored under the empty key. -/
theorem noEmptyKey_run {config : LRUConfig} {clock : Nat → UInt64} {fuel : Nat} {ops : List Op}
    {s : LRUCache} (hops : ∀ op ∈ ops, op.StoresIn config { key | key ≠ [] })
    (hrun : runSteps (apply fuel) (new config clock) ops = some s) :
    s.WellFormed ∧ [] ∉ s.keys ∧ s.config = config := by
  refine runSteps_invariant (I := fun t => t.WellFormed ∧ [] ∉ t.keys ∧ t.config = config) ?_
    ⟨wellFormed_new config clock, List.not_mem_nil, rfl⟩ (EveryStep.of_forall hops) hrun
  rintro t op t' ⟨hwf, hempty, hconfig⟩ hstores hop
  rw [← hconfig] at hstores
  refine ⟨wellFormed_apply hwf hop, fun hmem => ?_, (config_apply hop).trans hconfig⟩
  rcases mem_keys_apply hwf hop hstores hmem with hold | hnew
  · exact hempty hold
  · exact hnew rfl

theorem evictOne_of_emptyKey {s : LRUCache} {node : Nat} (hlist : s.lruList = [(node, [])]) :
    s.evictOne = { s with ticks := s.ticks + 1 } := by
  have hne : s.lruList ≠ [] := by
    rw [hlist]
    simp
  obtain ⟨key, hkey, hselect, -⟩ := selectEvictionTarget_spec hne
  have hempty : key = [] := by simpa [keys, hlist] using hkey
  unfold evictOne
  rw [if_neg (by simpa using hne), hselect, hempty]
  rfl

/-- No eviction loop gets rid of a lone empty key. -/
theorem lruList_maybeEvict_of_emptyKey {fuel node : Nat} {s s' : LRUCache}
    (hlist : s.lruList = [(node, [])]) (hrun : maybeEvict fuel s = some s') :
    s'.lruList = [(node, [])] := by
  have hstep : ∀ t : LRUCache, t.lruList = [(node, [])] → t.evictOne.lruList = [(node, [])] := by
    intro t ht
    rw [evictOne_of_emptyKey ht]
    exact ht
  exact maybeEvict_invariant hstep hlist hrun

theorem lruList_put_emptyKey {fuel : Nat} {config : LRUConfig} {clock : Nat → UInt64}
    {r : Bool × LRUCache} (hput : (new config clock).put fuel [] [] = some r) :
    r.2.lruList = [(0, [])] := by
  have hnone : (new config clock).cache.lookup [] = none := rfl
  rcases put_cases hput with ⟨hbig, -⟩ | ⟨-, -, old, hold, -⟩ | ⟨-, -, -, room, hroom, hevict⟩
  · simp at hbig
  · cases hnone.symm.trans hold
  · have hroom' : room = new config clock := by
      have hstay : (overflowsWith ([] : Bytes).length (new config clock) &&
          !(new config clock).lruList.isEmpty) = false := by simp [new]
      unfold evictWhile at hroom
      rw [hstay] at hroom
      exact (Option.some.inj hroom).symm
    subst hroom'
    exact lruList_maybeEvict_of_emptyKey rfl hevict

/-- The callers' keys decide: over all runs that store under keys of `K` only,
evictions progress and every call returns exactly when `K` does not have the
empty key. -/
theorem progresses_iff_no_emptyKey (config : LRUConfig) (clock : Nat → UInt64) (K : Set Bytes) :
    (∀ fuel ops s, (∀ op ∈ ops, op.StoresIn config K) →
        runSteps (apply fuel) (new config clock) ops = some s →
        s.Progresses ∧ ∀ op, op.StoresIn config K → ∃ fuel' s', s.apply fuel' op = some s') ↔
      [] ∉ K := by
  have hsub : [] ∉ K → ∀ op : Op, op.StoresIn config K →
      op.StoresIn config { key | key ≠ [] } := by
    rintro hK op hop
    cases op with
    | put key data =>
        rintro hfits rfl
        exact hK (hop hfits)
    | _ => trivial
  constructor
  · intro hall hK
    -- Storing no bytes under the empty key is never refused.
    have hstores : ∀ op ∈ [Op.put [] []], op.StoresIn config K := by simp [Op.StoresIn, hK]
    obtain ⟨fuel, s, hop⟩ := (hall 0 [] _ (by simp) rfl).2 (.put [] []) (hstores _ (by simp))
    obtain ⟨r, hput, rfl⟩ := Option.map_eq_some_iff.mp hop
    have hrun : runSteps (apply fuel) (new config clock) [.put [] []] = some r.2 :=
      runSteps_cons.mpr ⟨r.2, hop, rfl⟩
    have hlist := lruList_put_emptyKey hput
    have hless := (hall fuel _ _ hstores hrun).1 (by simp [hlist])
    rw [evictOne_of_emptyKey hlist] at hless
    exact Nat.lt_irrefl _ hless
  · intro hK fuel ops s hops hrun
    obtain ⟨hwf, hempty, rfl⟩ := noEmptyKey_run (fun op hop => hsub hK op (hops op hop)) hrun
    refine ⟨fun hne => ?_, fun op hop => apply_returns hwf hempty (hsub hK op hop)⟩
    exact (evicted_evictOne (evicted_refl hwf hempty) hne).2

/-- An eviction loop that has come down to the empty key goes on for ever. -/
theorem evictWhile_hangs {s : LRUCache} {node : Nat} (hlist : s.lruList = [(node, [])])
    (habove : s.aboveTarget = true) (fuel : Nat) : evictWhile aboveTarget fuel s = none := by
  have hgoes : (s.aboveTarget && !s.lruList.isEmpty) = true := by simp [habove, hlist]
  induction fuel generalizing s with
  | zero =>
      unfold evictWhile
      rw [if_pos hgoes]
  | succ fuel ih =>
      unfold evictWhile
      rw [if_pos hgoes]
      simp only
      rw [evictOne_of_emptyKey hlist]
      exact ih hlist habove hgoes

/-- Seven of ten bytes under the empty key: an eviction removes nothing, and
`evict_to_target` does not return. -/
theorem evictToTarget_hangs_emptyKey :
    ∃ s, runSteps (apply 0) (new { float := FloatArith.ieee, maxCapacity := 10 } fun _ => 0)
        [.put [] [1, 2, 3, 4, 5, 6, 7]] = some s ∧
      s.lruList ≠ [] ∧ s.evictOne.lruList = s.lruList ∧
        ∀ fuel, s.apply fuel .evictToTarget = none := by
  have hreached :
      (runSteps (apply 0) (new { float := FloatArith.ieee, maxCapacity := 10 } fun _ => 0)
      [.put [] [1, 2, 3, 4, 5, 6, 7]]).any
        (fun s => decide (s.lruList = [(0, [])]) && s.aboveTarget) = true := by
    decide +kernel
  obtain ⟨s, hrun, hs⟩ := (Option.any_eq_true _ _).mp hreached
  rw [Bool.and_eq_true, decide_eq_true_eq] at hs
  obtain ⟨hlist, habove⟩ := hs
  refine ⟨s, hrun, by simp [hlist], ?_, evictWhile_hangs hlist habove⟩
  rw [evictOne_of_emptyKey hlist]

end ElioP2P.Cache.LRUCache
