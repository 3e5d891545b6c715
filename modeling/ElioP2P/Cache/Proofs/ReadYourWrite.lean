import ElioP2P.Cache.Proofs.EvictionPolicy

/-!
# Reading what was just put

`put` may evict its own entry: when the cache is above the eviction threshold
with the new entry in it and the entry alone is above the target, the last
eviction takes the entry out, protected or not.  It stays in every other case
in which no eviction of the call prefers it to the entries cached before.
-/

namespace ElioP2P.Cache.LRUCache

open ElioP2P.Library

/-- The key is cached, or the item is within the target on its own, or no
eviction is due with the item beside what is left when room has been made. -/
def Settles (fuel : Nat) (s : LRUCache) (key : Bytes) (size : Nat) : Prop :=
  s.cache.lookup key = none → ∀ room, evictWhile (overflowsWith size) fuel s = some room →
    evictionDue room.config (room.currentSize + size) = false ∨
      usageAbove room.config size evictionTarget = false

/-- At each clock reading that an eviction after the insertion takes, the new
chunk is protected or scores no higher than any chunk beside it. -/
def Sheltered (fuel : Nat) (s s' : LRUCache) (key data : Bytes) : Prop :=
  ∀ room fresh, evictWhile (overflowsWith data.length) fuel s = some room →
    (room.insertNew key data).cache.lookup key = some fresh →
      ∀ j, (room.insertNew key data).ticks ≤ j → j < s'.ticks →
        s.clock j - fresh.lastAccessTime < s.config.evictionProtectionSec ∨
          ∀ k other, room.cache.lookup k = some other →
            fresh.computeEvictionScore s.config (s.clock j) ≤
              other.computeEvictionScore s.config (s.clock j)

/-! ## Usage grows with the size -/

theorem usageAbove_mono {config : LRUConfig} (hrounds : Rounds config.float.f32) {size size' : Nat}
    (hle : size ≤ size') {threshold : ℚ} (habove : usageAbove config size threshold = true) :
    usageAbove config size' threshold = true := by
  unfold usageAbove at habove ⊢
  split at habove
  · rename_i hzero
    rw [decide_eq_true_eq] at habove
    rw [if_pos hzero, decide_eq_true_eq]
    omega
  · rename_i hpositive
    rw [decide_eq_true_eq] at habove
    rw [if_neg hpositive, decide_eq_true_eq]
    refine lt_of_lt_of_le habove ?_
    have hcapacity : 0 ≤ config.float.f32 config.maxCapacity := hrounds.nonneg (Nat.cast_nonneg _)
    have hsize : config.float.f32 size ≤ config.float.f32 size' :=
      hrounds.mono (Set.mem_Ici.mpr (Nat.cast_nonneg _)) (Set.mem_Ici.mpr (Nat.cast_nonneg _))
        (Nat.cast_le.mpr hle)
    have hquotient : 0 ≤ config.float.f32 size / config.float.f32 config.maxCapacity :=
      div_nonneg (hrounds.nonneg (Nat.cast_nonneg _)) hcapacity
    have hquotients := div_le_div_of_nonneg_right hsize hcapacity
    exact hrounds.mono hquotient (hquotient.trans hquotients) hquotients

/-! ## The victim scores above the oldest entry -/

theorem foldl_keepBest_cases {α κ : Type*} (label : α → κ) (score : α → ℚ) (start : κ × ℚ)
    (items : List α) :
    let best := items.foldl
      (fun best a => if best.2 < score a then (label a, score a) else best) start
    best = start ∨ ∃ a ∈ items, best = (label a, score a) ∧ start.2 < score a := by
  induction items using List.reverseRecOn with
  | nil => exact Or.inl rfl
  | append_singleton items a ih =>
      simp only [List.foldl_append, List.foldl_cons, List.foldl_nil] at ih ⊢
      split
      · rename_i hlt
        refine Or.inr ⟨a, by simp, rfl, ?_⟩
        rcases ih with hstart | ⟨b, -, hbest, hb⟩
        · rwa [hstart] at hlt
        · rw [hbest] at hlt
          exact hb.trans hlt
      · rcases ih with hstart | ⟨b, hb, hbest, hlt⟩
        · exact Or.inl hstart
        · exact Or.inr ⟨b, List.mem_append_left _ hb, hbest, hlt⟩

theorem evictionCandidates_of_oldest {s : LRUCache} {oldest : Bytes} {c : Chunk}
    (hlast : s.keys.getLast? = some oldest) (hc : s.cache.lookup oldest = some c)
    (hfree : ¬ s.clock s.ticks - c.lastAccessTime < s.config.evictionProtectionSec) :
    ∃ rest, s.evictionCandidates = (oldest, c) :: rest := by
  obtain ⟨entries, hkeys⟩ : ∃ rest, s.keys.reverse = oldest :: rest := by
    rw [List.getLast?_eq_head?_reverse, List.head?_eq_some_iff] at hlast
    exact hlast
  have hsample : (s.lruList.reverse.take evictionSampleSize).map Prod.snd =
      oldest :: entries.take 31 := by
    rw [List.map_take, List.map_reverse, ← keys, hkeys]
    rfl
  unfold evictionCandidates
  rw [hsample, List.filterMap_cons]
  simp only [hc, Option.bind_some, if_neg hfree]
  exact ⟨_, rfl⟩

/-- With the oldest entry out of its protection period, the target is that
entry or one with a higher score. -/
theorem target_oldest_or_above {s : LRUCache} {oldest : Bytes} {c : Chunk}
    (hlast : s.keys.getLast? = some oldest) (hc : s.cache.lookup oldest = some c)
    (hfree : ¬ s.clock s.ticks - c.lastAccessTime < s.config.evictionProtectionSec) :
    s.selectEvictionTarget.1 = oldest ∨
      ∃ chunk, s.cache.lookup s.selectEvictionTarget.1 = some chunk ∧
        c.computeEvictionScore s.config (s.clock s.ticks) <
          chunk.computeEvictionScore s.config (s.clock s.ticks) := by
  have hne : s.lruList ≠ [] := by
    intro hnil
    rw [keys, hnil] at hlast
    cases hlast
  obtain ⟨rest, hcandidates⟩ := evictionCandidates_of_oldest hlast hc hfree
  have htarget : s.selectEvictionTarget.1 =
      if s.bestCandidate.1.isEmpty then oldest else s.bestCandidate.1 := by
    rw [selectEvictionTarget_best hne, hlast]
    rfl
  have hcases := foldl_keepBest_cases Prod.fst s.candidateScore
    (if -1 < s.candidateScore (oldest, c) then (oldest, s.candidateScore (oldest, c))
      else ([], -1)) rest
  rw [bestCandidate, hcandidates, List.foldl_cons] at htarget
  rcases hcases with hstart | ⟨y, hy, hbest, hlt⟩
  · left
    rw [hstart] at htarget
    rw [htarget]
    by_cases hfloor : -1 < s.candidateScore (oldest, c)
    · simp only [if_pos hfloor]
      split <;> rfl
    · simp only [if_neg hfloor]
      rfl
  · rw [hbest] at htarget
    by_cases hempty : y.1.isEmpty = true
    · exact Or.inl (htarget.trans (if_pos hempty))
    · right
      have hlookup : s.cache.lookup y.1 = some y.2 :=
        mem_evictionCandidates (hcandidates ▸ List.mem_cons_of_mem _ hy)
      refine ⟨y.2, by rw [htarget, if_neg hempty, hlookup], ?_⟩
      change s.candidateScore (oldest, c) < s.candidateScore y
      split_ifs at hlt with hfloor
      · exact hlt
      · exact lt_of_le_of_lt (not_lt.mp hfloor) hlt

/-! ## The new entry through the second eviction -/

structure Guarded (start : LRUCache) (key : Bytes) (fresh : Chunk) (s : LRUCache) : Prop where
  wellFormed : s.WellFormed
  config : s.config = start.config
  clock : s.clock = start.clock
  ticks : start.ticks ≤ s.ticks
  front : ∃ node rest, s.lruList = (node, key) :: rest
  chunk : s.cache.lookup key = some fresh
  others : ∀ k c, s.cache.lookup k = some c → start.cache.lookup k = some c

theorem lookup_evictOne_subset {s : LRUCache} {key : Bytes} {chunk : Chunk}
    (h : s.evictOne.cache.lookup key = some chunk) : s.cache.lookup key = some chunk := by
  rcases cache_evictOne s with heq | ⟨victim, heq⟩
  · rwa [heq] at h
  · rw [heq] at h
    by_cases hk : key = victim
    · rw [hk, AList.lookup_erase] at h
      cases h
    · rwa [AList.lookup_erase_ne hk] at h

theorem ticks_lt_evictOne {s : LRUCache} (hne : s.lruList ≠ []) : s.ticks < s.evictOne.ticks := by
  obtain ⟨key, -, hselect, -⟩ := selectEvictionTarget_spec hne
  unfold evictOne
  rw [if_neg (by simpa using hne), hselect]
  simp only
  split
  · exact Nat.lt_succ_self _
  · rw [(clock_evictKey _ key).2]
    exact Nat.lt_succ_self _

theorem guarded_evictOne {start s : LRUCache} {key : Bytes} {fresh : Chunk}
    (h : Guarded start key fresh s) (htarget : s.selectEvictionTarget.1 ≠ key) :
    Guarded start key fresh s.evictOne := by
  obtain ⟨node, rest, hlist⟩ := h.front
  have hne : s.lruList ≠ [] := by
    rw [hlist]
    exact List.cons_ne_nil _ _
  have hlater := later_evictOne s
  refine ⟨wellFormed_evictOne h.wellFormed, (config_evictOne s).trans h.config,
    hlater.clock.trans h.clock, h.ticks.trans hlater.ticks, ?_, ?_,
    fun k c hc => h.others k c (lookup_evictOne_subset hc)⟩
  · obtain ⟨victim, -, hselect, -⟩ := selectEvictionTarget_spec hne
    rw [hselect] at htarget
    unfold evictOne
    rw [if_neg (by simpa using hne), hselect]
    simp only
    split
    · exact ⟨node, rest, hlist⟩
    · rw [lruList_evictKey (wellFormed_ticks h.wellFormed _), listWithout, hlist]
      exact ⟨node, _, List.filter_cons_of_pos (bne_iff_ne.mpr (Ne.symm htarget))⟩
  · cases hgone : s.evictOne.cache.lookup key with
    | none =>
        have hvictim := ((lookup_evictOne_eq_none_iff hne h.chunk).mp hgone).1
        exact absurd hvictim.symm htarget
    | some c => rw [← h.chunk, lookup_evictOne_subset hgone]

theorem exists_oldest_other {s : LRUCache} (h : s.WellFormed) {node : Nat} {key : Bytes}
    {rest : List (Nat × Bytes)} (hlist : s.lruList = (node, key) :: rest)
    (hmore : 2 ≤ s.lruList.length) :
    ∃ oldest c, s.keys.getLast? = some oldest ∧ oldest ≠ key ∧ s.cache.lookup oldest = some c := by
  have hnodup := h.keysNodup
  rw [keys, hlist, List.map_cons] at hnodup
  obtain ⟨oldest, hlast, hother⟩ : ∃ oldest, s.keys.getLast? = some oldest ∧ oldest ≠ key := by
    cases rest with
    | nil => simp [hlist] at hmore
    | cons e rest =>
        rw [keys, hlist, List.map_cons, List.map_cons, List.getLast?_cons_cons]
        refine ⟨_, List.getLast?_eq_some_getLast (List.cons_ne_nil _ _), ?_⟩
        rintro heq
        exact (List.nodup_cons.mp hnodup).1 (heq ▸ List.getLast_mem _)
  have hmem := (h.cached oldest).mpr (List.mem_of_getLast? hlast)
  obtain ⟨c, hc⟩ := Option.isSome_iff_exists.mp (AList.lookup_isSome.mpr hmem)
  exact ⟨oldest, c, hlast, hother, hc⟩

theorem not_protected_of_older {now t t' period : UInt64} (hnow : t ≤ now) (hold : t' ≤ t)
    (hfree : ¬ now - t < period) : ¬ now - t' < period := by
  have hle := UInt64.le_iff_toNat_le.mp hnow
  have hbefore := UInt64.le_iff_toNat_le.mp hold
  rw [UInt64.lt_iff_toNat_lt, UInt64.toNat_sub_of_le _ _ hnow] at hfree
  rw [UInt64.lt_iff_toNat_lt, UInt64.toNat_sub_of_le _ _ (UInt64.le_trans hold hnow)]
  omega

/-- With another entry behind it, the new one is not the target as long as it
is protected or scores no higher than the others. -/
theorem target_ne_of_guarded {start s : LRUCache} {key : Bytes} {fresh : Chunk}
    (h : Guarded start key fresh s) (hmore : 2 ≤ s.lruList.length)
    (hold : ∀ k c, start.cache.lookup k = some c → c.lastAccessTime ≤ fresh.lastAccessTime)
    (hborn : fresh.lastAccessTime ≤ s.clock s.ticks)
    (hsheltered : s.clock s.ticks - fresh.lastAccessTime < s.config.evictionProtectionSec ∨
      ∀ k other, k ≠ key → start.cache.lookup k = some other →
        fresh.computeEvictionScore s.config (s.clock s.ticks) ≤
          other.computeEvictionScore s.config (s.clock s.ticks)) :
    s.selectEvictionTarget.1 ≠ key := by
  obtain ⟨node, rest, hlist⟩ := h.front
  have hne : s.lruList ≠ [] := by
    rw [hlist]
    exact List.cons_ne_nil _ _
  obtain ⟨oldest, c, hlast, hother, hc⟩ := exists_oldest_other h.wellFormed hlist hmore
  rintro rfl
  obtain ⟨victim, -, hselect, hwhich⟩ := selectEvictionTarget_spec hne
  have hvictim : s.selectEvictionTarget.1 = victim := congrArg Prod.fst hselect
  rcases hwhich with htail | ⟨chunk, hchunk, hfree⟩
  · rw [hlast, Option.some.injEq] at htail
    exact hother (htail.trans hvictim.symm)
  · rw [← hvictim, h.chunk, Option.some.injEq] at hchunk
    rw [← hchunk] at hfree
    -- The oldest entry is unprotected too, so it would have to score lower.
    have hfreeOldest := not_protected_of_older hborn (hold oldest c (h.others oldest c hc)) hfree
    rcases target_oldest_or_above hlast hc hfreeOldest with hself | ⟨chunk', hchunk', hlt⟩
    · exact hother hself.symm
    · rw [h.chunk, Option.some.injEq] at hchunk'
      rcases hsheltered with hprotected | hscores
      · exact hfree hprotected
      · have hle := hscores oldest c hother (h.others oldest c hc)
        rw [hchunk'] at hle
        exact absurd hlt (not_lt.mpr hle)

theorem guarded_evictWhile {cond : LRUCache → Bool} {fuel : Nat} {start s s' : LRUCache}
    {key : Bytes} {fresh : Chunk}
    (hspares : ∀ t, Guarded start key fresh t → cond t = true → t.ticks < s'.ticks →
      t.selectEvictionTarget.1 ≠ key)
    (h : Guarded start key fresh s) (hrun : evictWhile cond fuel s = some s') :
    Guarded start key fresh s' := by
  induction fuel generalizing s with
  | zero =>
      unfold evictWhile at hrun
      split at hrun
      · cases hrun
      · cases hrun
        exact h
  | succ fuel ih =>
      unfold evictWhile at hrun
      split at hrun
      · rename_i hgoes
        obtain ⟨hcond, hne⟩ : cond s = true ∧ s.lruList ≠ [] := by simpa using hgoes
        have hticks := lt_of_lt_of_le (ticks_lt_evictOne hne) (later_evictWhile hrun).ticks
        exact ih (guarded_evictOne h (hspares s h hcond hticks)) hrun
      · cases hrun
        exact h

theorem guarded_maybeEvict {fuel : Nat} {start s' : LRUCache} {key : Bytes} {fresh : Chunk}
    (h : Guarded start key fresh start)
    (htarget : usageAbove start.config fresh.size evictionTarget = false)
    (hold : ∀ k c, start.cache.lookup k = some c → c.lastAccessTime ≤ fresh.lastAccessTime)
    (hborn : ∀ j, start.ticks ≤ j → fresh.lastAccessTime ≤ start.clock j)
    (hsheltered : ∀ j, start.ticks ≤ j → j < s'.ticks →
      start.clock j - fresh.lastAccessTime < start.config.evictionProtectionSec ∨
        ∀ k other, k ≠ key → start.cache.lookup k = some other →
          fresh.computeEvictionScore start.config (start.clock j) ≤
            other.computeEvictionScore start.config (start.clock j))
    (hevict : maybeEvict fuel start = some s') : Guarded start key fresh s' := by
  unfold maybeEvict at hevict
  split at hevict
  · refine guarded_evictWhile (fun t ht hcond hticks => ?_) h hevict
    obtain ⟨node, rest, hlist⟩ := ht.front
    have hmore : 2 ≤ t.lruList.length := by
      cases rest with
      | nil =>
          -- Alone, the entry is within the target and the loop has ended.
          rw [aboveTarget, currentSize_of_alone ht.wellFormed hlist ht.chunk, ht.config,
            htarget] at hcond
          cases hcond
      | cons e rest => simp [hlist]
    apply target_ne_of_guarded ht hmore hold
    · rw [ht.clock]
      exact hborn t.ticks ht.ticks
    · rw [ht.clock, ht.config]
      exact hsheltered t.ticks ht.ticks hticks
  · cases hevict
    exact h

/-! ## The whole call -/

/-- The entry is gone when an eviction is due and the item alone is above the
target: the loop goes on while the entry is there. -/
theorem dataOf_maybeEvict_of_large {fuel : Nat} {s s' : LRUCache} {key data : Bytes}
    (hrounds : Rounds s.config.float.f32) (h : s.WellFormed)
    (hdue : evictionDue s.config s.currentSize = true)
    (hlarge : usageAbove s.config data.length evictionTarget = true)
    (hevict : maybeEvict fuel s = some s') : s'.dataOf key ≠ some data := by
  intro hdata
  obtain ⟨chunk, hchunk, rfl⟩ := Option.map_eq_some_iff.mp hdata
  have hwf := wellFormed_maybeEvict h hevict
  have hconfig := (shrinks_maybeEvict hevict).1
  rw [evictionDue, Bool.and_eq_true] at hdue
  rw [maybeEvict, if_pos hdue.1] at hevict
  rcases evictWhile_ended hevict with hbelow | hnil
  · rw [aboveTarget, hconfig,
      usageAbove_mono hrounds (size_le_currentSize hwf hchunk) hlarge] at hbelow
    cases hbelow
  · have hkey := (hwf.cached key).mp (mem_cache_of_lookup hchunk)
    rw [keys, hnil] at hkey
    cases hkey

theorem guarded_insertNew {room : LRUCache} (h : room.WellFormed) {key : Bytes} (data : Bytes)
    (hnew : key ∉ room.cache) :
    ∃ fresh, Guarded (room.insertNew key data) key fresh (room.insertNew key data) ∧
      fresh.data = data ∧ fresh.lastAccessTime = room.clock room.ticks := by
  refine ⟨_, ⟨wellFormed_insertNew h data hnew, rfl, rfl, Nat.le_refl _,
    ⟨room.nextNode, room.lruList, rfl⟩, AList.lookup_insert _, fun _ _ hc => hc⟩, rfl, rfl⟩

theorem lookup_insertNew_other (s : LRUCache) {key k : Bytes} (data : Bytes) (hk : k ≠ key) :
    (s.insertNew key data).cache.lookup k = s.cache.lookup k := by
  simp [insertNew, makeChunk, currentTime, pushFront, AList.lookup_insert_ne hk]

theorem sheltered_of_steady {fuel : Nat} {s s' : LRUCache} (key data : Bytes)
    (hsteady : ∀ i j, s.ticks ≤ i → i ≤ j → j < s'.ticks →
      s.clock j - s.clock i < s.config.evictionProtectionSec) : s.Sheltered fuel s' key data := by
  intro room fresh hroom hfresh j hj hjEnd
  have hlater := later_evictWhile hroom
  have hborn : fresh.lastAccessTime = s.clock room.ticks := by
    have hlookup : (room.insertNew key data).cache.lookup key =
        some ((room.makeChunk key data).1.computeHeatLevel room.config.float
          (room.clock (room.ticks + 1)) room.config.hotThreshold room.config.warmThreshold) :=
      AList.lookup_insert _
    rw [hlookup, Option.some.injEq] at hfresh
    rw [← hfresh, ← hlater.clock]
    rfl
  left
  rw [hborn]
  exact hsteady room.ticks j hlater.ticks (le_trans (Nat.le_add_right room.ticks 2) hj) hjEnd

theorem dataOf_put_replace {fuel : Nat} {s s' : LRUCache} {key data : Bytes} {old : Chunk}
    (hold : s.cache.lookup key = some old) (hput : s.put fuel key data = some (true, s')) :
    s'.dataOf key = some data := by
  rcases put_cases hput with ⟨-, hok, -⟩ | ⟨-, -, _, -, rfl⟩ | ⟨-, -, hnone, -⟩
  · cases hok
  · rw [dataOf_congr (cache_touch _ key), dataOf_replaced_same]
  · rw [hold] at hnone
    cases hnone

/-- Beside the entry that an insertion has just stamped, no other is younger. -/
theorem lastAccessTime_le_of_insertNew {room : LRUCache} {key data : Bytes} {fresh : Chunk}
    (hstamped : room.Stamped) (hclock : ∀ i j, i ≤ j → room.clock i ≤ room.clock j)
    (hfresh : (room.insertNew key data).cache.lookup key = some fresh)
    (hborn : fresh.lastAccessTime = room.clock room.ticks) (k : Bytes) (c : Chunk)
    (hc : (room.insertNew key data).cache.lookup k = some c) :
    c.lastAccessTime ≤ fresh.lastAccessTime := by
  by_cases hk : k = key
  · rw [hk, hfresh, Option.some.injEq] at hc
    rw [hc]
    exact UInt64.le_refl _
  · rw [lookup_insertNew_other room data hk] at hc
    obtain ⟨i, hi, htime⟩ := hstamped k c hc
    rw [htime, hborn]
    exact hclock i room.ticks hi.le

/-- In a state reached with a clock that does not run backwards, `put` of a new
key keeps the item if it settles and is sheltered. -/
theorem dataOf_put_new_of_settles {fuel : Nat} {s s' room : LRUCache} {key data : Bytes}
    (h : s.WellFormed) (hstamped : s.Stamped) (hclock : ∀ i j, i ≤ j → s.clock i ≤ s.clock j)
    (hnone : s.cache.lookup key = none)
    (hroom : evictWhile (overflowsWith data.length) fuel s = some room)
    (hevict : maybeEvict fuel (room.insertNew key data) = some s')
    (hsheltered : s.Sheltered fuel s' key data)
    (hsettles : evictionDue room.config (room.currentSize + data.length) = false ∨
      usageAbove room.config data.length evictionTarget = false) :
    s'.dataOf key = some data := by
  have hshrinks := shrinks_evictWhile hroom
  have hlater := later_evictWhile hroom
  have hclock' : ∀ i j, i ≤ j → room.clock i ≤ room.clock j := by rwa [hlater.clock]
  obtain ⟨fresh, hguarded, hdata, hborn⟩ := guarded_insertNew (wellFormed_evictWhile h hroom) data
    (notMem_cache_of_shrinks hshrinks hnone)
  have hkept : ∀ t, Guarded (room.insertNew key data) key fresh t → t.dataOf key = some data := by
    intro t ht
    rw [dataOf, ht.chunk, Option.map_some, hdata]
  rcases hsettles with hcalm | hsmall
  · rcases maybeEvict_idle_or_shortens hguarded.wellFormed hevict with ⟨-, rfl⟩ | ⟨hbusy, -⟩
    · exact hkept _ hguarded
    · refine absurd (fun hdue => ?_) hbusy
      exact absurd hdue (Bool.not_eq_true _ ▸ hcalm)
  · refine hkept s' (guarded_maybeEvict hguarded ?_ ?_ ?_ ?_ hevict)
    · rw [Chunk.size, hdata]
      exact hsmall
    · exact lastAccessTime_le_of_insertNew (hlater.stamped hstamped) hclock' hguarded.chunk hborn
    · intro j hj
      rw [hborn]
      exact hclock' room.ticks j (le_trans (Nat.le_add_right room.ticks 2) hj)
    · intro j hj hjEnd
      have hshelter := hsheltered room fresh hroom hguarded.chunk j hj hjEnd
      change room.clock j - _ < room.config.evictionProtectionSec ∨ _
      rw [hlater.clock, hshrinks.1]
      refine hshelter.imp_right fun hscores k other hk hother => ?_
      rw [lookup_insertNew_other room data hk] at hother
      change fresh.computeEvictionScore room.config (room.clock j) ≤
        other.computeEvictionScore room.config (room.clock j)
      rw [hlater.clock, hshrinks.1]
      exact hscores k other hother

theorem settles_of_dataOf_put_new {fuel : Nat} {s s' room : LRUCache} {key data : Bytes}
    (hrounds : Rounds s.config.float.f32) (h : s.WellFormed) (hnone : s.cache.lookup key = none)
    (hroom : evictWhile (overflowsWith data.length) fuel s = some room)
    (hevict : maybeEvict fuel (room.insertNew key data) = some s')
    (hkept : s'.dataOf key = some data) :
    evictionDue room.config (room.currentSize + data.length) = false ∨
      usageAbove room.config data.length evictionTarget = false := by
  have hshrinks := shrinks_evictWhile hroom
  have hwf := wellFormed_insertNew (wellFormed_evictWhile h hroom) data
    (notMem_cache_of_shrinks hshrinks hnone)
  by_contra hnot
  rw [not_or, Bool.not_eq_false, Bool.not_eq_false] at hnot
  have hroundsNew : Rounds (room.insertNew key data).config.float.f32 := by
    rw [config_insertNew, hshrinks.1]
    exact hrounds
  exact dataOf_maybeEvict_of_large hroundsNew hwf hnot.1 hnot.2 hevict hkept

/-- Along every run with a clock that does not run backwards: what `put` has
accepted can be read back only if it settles, and if it settles and no slow
eviction prefers it. -/
theorem put_readable_iff {config : LRUConfig} {clock : Nat → UInt64} {fuel fuel' : Nat}
    {calls : List Call} {s s' : LRUCache} {key data : Bytes} (hrounds : Rounds config.float.f32)
    (hclock : ∀ i j, i ≤ j → clock i ≤ clock j)
    (hrun : runSteps (call fuel) (new config clock) calls = some s)
    (hput : s.put fuel' key data = some (true, s')) :
    (s.Sheltered fuel' s' key data →
        ((s'.get key).1.map Chunk.data = some data ↔ s.Settles fuel' key data.length)) ∧
      ((s'.get key).1.map Chunk.data = some data → s.Settles fuel' key data.length) := by
  have hlater := later_run hrun
  have hstamped : s.Stamped := hlater.stamped nofun
  have hwf : s.WellFormed :=
    runSteps_invariant (I := WellFormed) (P := fun _ _ => True)
      (fun _ _ _ ht _ hcall => wellFormed_call ht hcall) (wellFormed_new config clock)
      (EveryStep.of_forall fun _ _ => trivial) hrun
  have hrounds' : Rounds s.config.float.f32 := by
    obtain ⟨hot, warm, hconfig⟩ := hlater.config
    rw [hconfig]
    exact hrounds
  rw [data_get]
  cases hlookup : s.cache.lookup key with
  | some old =>
      have hkept := dataOf_put_replace hlookup hput
      have hsettles : s.Settles fuel' key data.length := by
        intro hnone
        rw [hlookup] at hnone
        cases hnone
      exact ⟨fun _ => iff_of_true hkept hsettles, fun _ => hsettles⟩
  | none =>
      rcases put_cases hput with ⟨-, hok, -⟩ | ⟨-, -, old, hold, -⟩ |
        ⟨-, -, -, room, hroom, hevict⟩
      · cases hok
      · rw [hlookup] at hold
        cases hold
      · have hclock' : ∀ i j, i ≤ j → s.clock i ≤ s.clock j := by
          rw [hlater.clock]
          exact hclock
        have hsettles : s'.dataOf key = some data → s.Settles fuel' key data.length := by
          intro hdata _ room' hroom'
          rw [hroom, Option.some.injEq] at hroom'
          rw [← hroom']
          exact settles_of_dataOf_put_new hrounds' hwf hlookup hroom hevict hdata
        refine ⟨fun hsheltered => ⟨hsettles, fun hset => ?_⟩, hsettles⟩
        exact dataOf_put_new_of_settles hwf hstamped hclock' hlookup hroom hevict hsheltered
          (hset hlookup room hroom)

/-- Half of the capacity can be read back, although it drives out the other
half. -/
theorem put_readable_half :
    ∃ s s', runSteps (call 0) (new tenBytes fun _ => 0)
        [.op (.put (ascii "a") [1, 2, 3, 4, 5])] = some s ∧
      s.put 1 (ascii "b") [6, 7, 8, 9, 10] = some (true, s') ∧
      (s'.get (ascii "b")).1.map Chunk.data = some [6, 7, 8, 9, 10] := by
  have hcheck : (runSteps (call 0) (new tenBytes fun _ => 0)
      [.op (.put (ascii "a") [1, 2, 3, 4, 5])]).any (fun s =>
        (s.put 1 (ascii "b") [6, 7, 8, 9, 10]).any Prod.fst &&
          !usageAbove s.config 5 evictionTarget) = true := by
    decide +kernel
  obtain ⟨s, hrun, hs⟩ := (Option.any_eq_true _ _).mp hcheck
  rw [Bool.and_eq_true, Bool.not_eq_true'] at hs
  obtain ⟨⟨ok, s'⟩, hput, hok⟩ := (Option.any_eq_true _ _).mp hs.1
  cases hok
  have hclock : ∀ i j, i ≤ j → (fun _ : Nat => (0 : UInt64)) i ≤ (fun _ : Nat => (0 : UInt64)) j :=
    fun _ _ _ => UInt64.le_refl _
  have hlater := later_run hrun
  have hsheltered : s.Sheltered 1 s' (ascii "b") [6, 7, 8, 9, 10] := by
    apply sheltered_of_steady
    intro i j _ _ _
    obtain ⟨hot, warm, hconfig⟩ := hlater.config
    rw [hlater.clock, hconfig]
    change (0 : UInt64) - 0 < 60
    decide
  have hsettles : s.Settles 1 (ascii "b") 5 := by
    intro _ room hroom
    rw [(shrinks_evictWhile hroom).1]
    exact Or.inr hs.2
  exact ⟨s, s', hrun, hput, ((put_readable_iff rounds_ieee hclock hrun hput).1 hsheltered).mpr
    hsettles⟩

/-- Nine of ten bytes are accepted and evicted in the same call. -/
theorem not_put_readable_nine :
    ∃ s', (new tenBytes fun _ => 0).put 1 (ascii "a") [1, 2, 3, 4, 5, 6, 7, 8, 9] =
        some (true, s') ∧
      (s'.get (ascii "a")).1 = none := by
  have hcheck : ((new tenBytes fun _ => 0).put 1 (ascii "a") [1, 2, 3, 4, 5, 6, 7, 8, 9]).any
      (fun r => r.1 && decide ((r.2.get (ascii "a")).1 = none)) = true := by
    decide +kernel
  obtain ⟨⟨ok, s'⟩, hput, hr⟩ := (Option.any_eq_true _ _).mp hcheck
  rw [Bool.and_eq_true, decide_eq_true_eq] at hr
  obtain ⟨hok, hget⟩ := hr
  cases hok
  exact ⟨s', hput, hget⟩

end ElioP2P.Cache.LRUCache
