import ElioP2P.Cache.Proofs.LRURuns

/-!
# What the LRU cache remembers of its calls

The calls on a cache are observed: which keys were inserted, updated or read
with success, and what was put.  The recency list is then the order of last
uses, and every cached chunk is the latest one that was put and not refused.
-/

namespace ElioP2P.Cache

open ElioP2P.Library

/-! ## Recency -/

section Recency

variable {κ : Type} [DecidableEq κ]

/-- The keys stand in the order of their latest uses, and all have been used.
`uses` has the latest use first. -/
structure RecentFirst (uses keys : List κ) : Prop where
  order : keys.Pairwise fun a b => uses.idxOf a < uses.idxOf b
  used : ∀ key ∈ keys, key ∈ uses

def useFirst (key : κ) (keys : List κ) : List κ := key :: keys.filter (· ≠ key)

theorem RecentFirst.sublist {uses keys keys' : List κ} (h : RecentFirst uses keys)
    (hsub : keys'.Sublist keys) : RecentFirst uses keys' :=
  ⟨h.order.sublist hsub, fun key hkey => h.used key (hsub.subset hkey)⟩

theorem RecentFirst.use {uses keys : List κ} (h : RecentFirst uses keys) (key : κ) :
    RecentFirst (key :: uses) (useFirst key keys) where
  order := by
    have hother : ∀ {b}, b ∈ keys.filter (· ≠ key) →
        (key :: uses).idxOf b = uses.idxOf b + 1 := by
      intro b hb
      have hne : b ≠ key := by simpa using (List.mem_filter.mp hb).2
      exact List.idxOf_cons_ne _ (Ne.symm hne)
    rw [useFirst, List.pairwise_cons]
    constructor
    · intro b hb
      rw [List.idxOf_cons_self, hother hb]
      omega
    · have hrest := h.order.sublist (List.filter_sublist (p := (· ≠ key)))
      refine hrest.imp_of_mem fun ha hb hab => ?_
      rw [hother ha, hother hb]
      omega
  used := by
    intro b hb
    rcases List.mem_cons.mp hb with rfl | hrest
    · exact List.mem_cons_self
    · exact List.mem_cons_of_mem _ (h.used b (List.mem_filter.mp hrest).1)

end Recency

namespace LRUCache

theorem keys_touch {s : LRUCache} (h : s.WellFormed) {key : Bytes} (hkey : key ∈ s.keys) :
    (s.touch key).keys = useFirst key s.keys := by
  have hrest : (s.listWithout key).map Prod.snd = s.keys.filter (· ≠ key) := by
    rw [listWithout, keys, List.filter_map]
    congr 1
    apply List.filter_congr
    intro entry _
    simp [bne, beq_eq_decide]
  rw [keys, (touch_spec h hkey).1, List.map_cons, hrest, useFirst]

theorem keys_touch_sublist {s s' : LRUCache} {key : Bytes} (h : s'.WellFormed)
    (hkeys : s'.keys = s.keys) (hkey : key ∈ s.keys) :
    (s'.touch key).keys.Sublist (useFirst key s.keys) := by
  rw [← hkeys] at hkey
  rw [keys_touch h hkey, hkeys]

theorem keys_get {s : LRUCache} (h : s.WellFormed) (key : Bytes) :
    (s.get key).2.keys = if (s.get key).1.isSome then useFirst key s.keys else s.keys := by
  unfold get
  split
  · rfl
  · rename_i chunk hchunk
    have hkey : key ∈ s.keys := (h.cached key).mp (mem_cache_of_lookup hchunk)
    exact keys_touch h hkey

theorem keys_sublist_of_list {s s' : LRUCache} {key : Bytes}
    (hlist : s'.lruList = s.listWithout key) : s'.keys.Sublist s.keys := by
  rw [keys, keys, hlist]
  exact List.filter_sublist.map _

theorem keys_remove_sublist {s : LRUCache} (h : s.WellFormed) (key : Bytes) :
    (s.remove key).2.keys.Sublist s.keys := by
  unfold remove
  split
  · exact List.Sublist.refl _
  · simp only [unlink_setSize]
    exact keys_sublist_of_list (unlink_spec h key).1

theorem keys_evictOne_sublist {s : LRUCache} (h : s.WellFormed) :
    s.evictOne.keys.Sublist s.keys := by
  by_cases hne : s.lruList = []
  · unfold evictOne
    rw [if_pos (by simpa using hne)]
  · obtain ⟨key, -, hselect, -⟩ := selectEvictionTarget_spec hne
    unfold evictOne
    rw [if_neg (by simpa using hne), hselect]
    simp only
    split
    · exact List.Sublist.refl _
    · have hlist := lruList_evictKey (wellFormed_ticks h (s.ticks + 1)) key
      exact keys_sublist_of_list (s := { s with ticks := s.ticks + 1 }) hlist

theorem keys_evictWhile_sublist {cond : LRUCache → Bool} {fuel : Nat} {s s' : LRUCache}
    (h : s.WellFormed) (hrun : evictWhile cond fuel s = some s') : s'.keys.Sublist s.keys := by
  have hboth : s'.WellFormed ∧ s'.keys.Sublist s.keys := by
    refine evictWhile_invariant (I := fun t => t.WellFormed ∧ t.keys.Sublist s.keys) ?_
      ⟨h, List.Sublist.refl _⟩ hrun
    rintro t ⟨ht, hsub⟩
    exact ⟨wellFormed_evictOne ht, (keys_evictOne_sublist ht).trans hsub⟩
  exact hboth.2

theorem keys_maybeEvict_sublist {fuel : Nat} {s s' : LRUCache} (h : s.WellFormed)
    (hrun : maybeEvict fuel s = some s') : s'.keys.Sublist s.keys := by
  unfold maybeEvict at hrun
  split at hrun
  · exact keys_evictWhile_sublist h hrun
  · cases hrun
    exact List.Sublist.refl _

theorem put_accepted {fuel : Nat} {s s' : LRUCache} {key data : Bytes} {ok : Bool}
    (hput : s.put fuel key data = some (ok, s')) :
    ok = decide (data.length ≤ s.config.maxCapacity) := by
  rcases put_cases hput with ⟨hbig, rfl, -⟩ | ⟨hfits, rfl, -⟩ | ⟨hfits, rfl, -⟩
  · simpa using hbig
  · simpa using hfits
  · simpa using hfits

/-- A `put` that is not refused uses its key; what it evicts leaves the order
of the others alone. -/
theorem keys_put_sublist {fuel : Nat} {s s' : LRUCache} {key data : Bytes} {ok : Bool}
    (h : s.WellFormed) (hput : s.put fuel key data = some (ok, s')) :
    s'.keys.Sublist (if ok then useFirst key s.keys else s.keys) := by
  rcases put_cases hput with ⟨-, rfl, rfl⟩ | ⟨-, rfl, old, hold, rfl⟩ |
    ⟨-, rfl, hnone, room, hroom, hevict⟩
  · exact List.Sublist.refl _
  · have hkey : key ∈ s.keys := (h.cached key).mp (mem_cache_of_lookup hold)
    exact keys_touch_sublist (wellFormed_replaced data h hold) rfl hkey
  · have hwf := wellFormed_evictWhile h hroom
    have hnew := notMem_cache_of_shrinks (shrinks_evictWhile hroom) hnone
    have hfilter : s.keys.filter (· ≠ key) = s.keys := by
      apply List.filter_eq_self.mpr
      intro k hk
      rw [decide_eq_true_eq]
      rintro rfl
      exact AList.lookup_eq_none.mp hnone ((h.cached k).mpr hk)
    have hrest := keys_maybeEvict_sublist (wellFormed_insertNew hwf data hnew) hevict
    have hinserted : (room.insertNew key data).keys = key :: room.keys := rfl
    rw [hinserted] at hrest
    refine hrest.trans ?_
    rw [if_pos rfl, useFirst, hfilter]
    exact (keys_evictWhile_sublist h hroom).cons_cons key

end LRUCache

/-! ## Observed calls -/

structure PutCall where
  key : Bytes
  data : Bytes
  accepted : Bool

/-- A cache with its past: the keys that were inserted, updated or read with
success, and the calls of `put`, both latest first. -/
structure Observed where
  cache : LRUCache
  uses : List Bytes := []
  puts : List PutCall := []

namespace Observed

open LRUCache

def apply (fuel : Nat) (o : Observed) : Op → Option Observed
  | .put key data => (o.cache.put fuel key data).map fun (accepted, cache) =>
      { cache := cache
        uses := if accepted then key :: o.uses else o.uses
        puts := ⟨key, data, accepted⟩ :: o.puts }
  | .get key =>
      let (found, cache) := o.cache.get key
      some { o with cache := cache, uses := if found.isSome then key :: o.uses else o.uses }
  | op => (o.cache.apply fuel op).map fun cache => { o with cache := cache }

theorem cache_apply (fuel : Nat) (o : Observed) (op : Op) :
    (o.apply fuel op).map Observed.cache = o.cache.apply fuel op := by
  cases op with
  | put key data => simp [apply, LRUCache.apply, Function.comp_def]
  | get key => rfl
  | _ => simp [apply, Function.comp_def]

def latestPut (o : Observed) (key : Bytes) : Option Bytes :=
  (o.puts.find? fun call => call.key == key).map PutCall.data

def latestAccepted (o : Observed) (key : Bytes) : Option Bytes :=
  (o.puts.find? fun call => call.accepted && call.key == key).map PutCall.data

end Observed

/-- The states that a call on `s` goes through: an eviction, or the insertion of
a key that is not cached. -/
inductive LRUCache.Passes (s : LRUCache) : LRUCache → Prop
  | here : Passes s s
  | evict {t : LRUCache} (h : Passes s t) : Passes s t.evictOne
  | insert {t : LRUCache} {key : Bytes} (data : Bytes) (h : Passes s t)
      (hnone : t.cache.lookup key = none) : Passes s (t.insertNew key data)

/-- The containers and the counter agree with one another and with the past. -/
structure Observed.Represents (o : Observed) : Prop where
  wellFormed : o.cache.WellFormed
  recentFirst : RecentFirst o.uses o.cache.keys
  latest : ∀ key chunk, o.cache.cache.lookup key = some chunk →
    o.latestAccepted key = some chunk.data
  /-- No size that is subtracted from the counter is larger than it. -/
  noWrap : ∀ t, o.cache.Passes t → ∀ key chunk, t.cache.lookup key = some chunk →
    chunk.size ≤ t.currentSize

theorem LRUCache.Passes.wellFormed {s t : LRUCache} (h : s.WellFormed) (hpasses : s.Passes t) :
    t.WellFormed := by
  induction hpasses with
  | here => exact h
  | evict _ ih => exact wellFormed_evictOne ih
  | insert data _ hnone ih => exact wellFormed_insertNew ih data (AList.lookup_eq_none.mp hnone)

namespace Observed

open LRUCache

theorem represents_of {o : Observed} (hwf : o.cache.WellFormed)
    (hrecent : RecentFirst o.uses o.cache.keys)
    (hlatest : ∀ key data, o.cache.dataOf key = some data → o.latestAccepted key = some data) :
    o.Represents where
  wellFormed := hwf
  recentFirst := hrecent
  latest key chunk hchunk := hlatest key chunk.data (by simp [dataOf, hchunk])
  noWrap _ hpasses _ _ hchunk := size_le_currentSize (hpasses.wellFormed hwf) hchunk

theorem Represents.dataOf {o : Observed} (h : o.Represents) {key data : Bytes}
    (hdata : o.cache.dataOf key = some data) : o.latestAccepted key = some data := by
  obtain ⟨chunk, hchunk, rfl⟩ := Option.map_eq_some_iff.mp hdata
  exact h.latest key chunk hchunk

theorem Represents.shrink {o : Observed} (h : o.Represents) {s' : LRUCache}
    (hwf : s'.WellFormed) (hkeys : s'.keys.Sublist o.cache.keys)
    (hdata : ∀ key data, s'.dataOf key = some data → o.cache.dataOf key = some data) :
    Represents { o with cache := s' } :=
  represents_of hwf (h.recentFirst.sublist hkeys) fun key data hd => h.dataOf (hdata key data hd)

theorem represents_put {fuel : Nat} {o : Observed} {key data : Bytes} {accepted : Bool}
    {s' : LRUCache} (h : o.Represents)
    (hput : o.cache.put fuel key data = some (accepted, s')) :
    Represents
      { cache := s'
        uses := if accepted then key :: o.uses else o.uses
        puts := ⟨key, data, accepted⟩ :: o.puts } := by
  have hkeys := keys_put_sublist h.wellFormed hput
  have haccepted := put_accepted hput
  refine represents_of (wellFormed_put h.wellFormed hput) ?_ fun k d hd => ?_
  · cases accepted with
    | true => exact (h.recentFirst.use key).sublist hkeys
    | false => exact h.recentFirst.sublist hkeys
  · by_cases hfits : data.length ≤ o.cache.config.maxCapacity
    · have htrue : accepted = true := by rw [haccepted, decide_eq_true hfits]
      rcases dataOf_put hput hfits hd with ⟨rfl, rfl⟩ | ⟨hne, hold⟩
      · simp [latestAccepted, htrue]
      · have hlatest := h.dataOf hold
        unfold latestAccepted at hlatest ⊢
        rw [List.find?_cons_of_neg (by simpa using fun _ => Ne.symm hne)]
        exact hlatest
    · rw [put_of_capacity_lt (by omega)] at hput
      cases hput
      exact h.dataOf hd

theorem represents_get {o : Observed} (h : o.Represents) (key : Bytes) :
    Represents
      { o with
        cache := (o.cache.get key).2
        uses := if (o.cache.get key).1.isSome then key :: o.uses else o.uses } := by
  refine represents_of (wellFormed_get h.wellFormed key) ?_ fun k d hd => ?_
  · simp only [keys_get h.wellFormed key]
    split
    · exact h.recentFirst.use key
    · exact h.recentFirst
  · simp only [dataOf_get] at hd
    exact h.dataOf hd

theorem represents_apply {fuel : Nat} {o o' : Observed} {op : Op} (h : o.Represents)
    (hop : o.apply fuel op = some o') : o'.Represents := by
  cases op with
  | put key data =>
      obtain ⟨⟨accepted, s'⟩, hput, rfl⟩ := Option.map_eq_some_iff.mp hop
      exact represents_put h hput
  | get key =>
      cases hop
      exact represents_get h key
  | remove key =>
      cases hop
      exact h.shrink (wellFormed_remove h.wellFormed key) (keys_remove_sublist h.wellFormed key)
        (shrinks_remove o.cache key).2
  | clear =>
      cases hop
      exact h.shrink (wellFormed_clear o.cache) (List.nil_sublist _) nofun
  | updateChunkMetadata key replicaCount heatLevel =>
      cases hop
      refine h.shrink (wellFormed_updateChunkMetadata h.wellFormed key replicaCount heatLevel) ?_
        fun k d hd => ?_
      · have hlist : (o.cache.updateChunkMetadata key replicaCount heatLevel).lruList =
            o.cache.lruList := by
          unfold updateChunkMetadata
          split <;> rfl
        rw [keys, keys, hlist]
      · rwa [dataOf_updateChunkMetadata] at hd
  | maybeEvict =>
      obtain ⟨s', hevict, rfl⟩ := Option.map_eq_some_iff.mp hop
      exact h.shrink (wellFormed_maybeEvict h.wellFormed hevict)
        (keys_maybeEvict_sublist h.wellFormed hevict) (shrinks_maybeEvict hevict).2
  | evictToTarget =>
      obtain ⟨s', hevict, rfl⟩ := Option.map_eq_some_iff.mp hop
      exact h.shrink (wellFormed_apply h.wellFormed hevict)
        (keys_evictWhile_sublist h.wellFormed hevict) (shrinks_evictWhile hevict).2

/-- Whatever the calls and the clock readings, the containers, the counter and
the past agree in every state reached. -/
theorem represents_run {config : LRUConfig} {clock : Nat → UInt64} {fuel : Nat} {ops : List Op}
    {o : Observed} (hrun : runSteps (apply fuel) { cache := new config clock } ops = some o) :
    o.Represents := by
  have hnew : Represents { cache := new config clock } :=
    represents_of (wellFormed_new config clock) ⟨List.Pairwise.nil, nofun⟩ nofun
  exact runSteps_invariant (P := fun _ _ => True) (fun _ _ _ h _ hop => represents_apply h hop)
    hnew (EveryStep.of_forall fun _ _ => trivial) hrun

def smallCache : LRUCache := new { float := FloatArith.ieee, maxCapacity := 4 } fun _ => 0

/-- Two keys, the first of them used again. -/
theorem represents_run_two :
    ∃ o, runSteps (apply 0) { cache := smallCache }
        [.put (ascii "a") [1], .put (ascii "b") [2], .get (ascii "a")] = some o ∧
      o.cache.keys = [ascii "a", ascii "b"] ∧ o.Represents := by
  have hkeys : (runSteps (apply 0) { cache := smallCache }
      [.put (ascii "a") [1], .put (ascii "b") [2], .get (ascii "a")]).any
        (fun o => decide (o.cache.keys = [ascii "a", ascii "b"])) = true := by
    decide +kernel
  obtain ⟨o, hrun, ho⟩ := (Option.any_eq_true _ _).mp hkeys
  exact ⟨o, hrun, of_decide_eq_true ho, represents_run hrun⟩

/-- After a refused `put` the key still holds what was put before. -/
theorem not_latestPut_refused :
    ∃ o, runSteps (apply 0) { cache := smallCache }
        [.put (ascii "a") [1], .put (ascii "a") [1, 2, 3, 4, 5]] = some o ∧
      ∃ chunk, o.cache.cache.lookup (ascii "a") = some chunk ∧
        o.latestPut (ascii "a") ≠ some chunk.data := by
  have hdata : (runSteps (apply 0) { cache := smallCache }
      [.put (ascii "a") [1], .put (ascii "a") [1, 2, 3, 4, 5]]).any
        (fun o => (o.cache.cache.lookup (ascii "a")).any fun chunk =>
          decide (o.latestPut (ascii "a") ≠ some chunk.data)) = true := by
    decide +kernel
  obtain ⟨o, hrun, ho⟩ := (Option.any_eq_true _ _).mp hdata
  obtain ⟨chunk, hchunk, hne⟩ := (Option.any_eq_true _ _).mp ho
  exact ⟨o, hrun, chunk, hchunk, of_decide_eq_true hne⟩

end Observed

end ElioP2P.Cache
