import ElioP2P.Library.Maps
import ElioP2P.Library.Bytes
import ElioP2P.Library.Rounding

/-!
# The in-memory LRU cache

The memory tier of `src/cache/lru_cache.cpp`: a recency list, a hash map of
chunks and a map from keys to list nodes, with sampled multi-factor eviction.

Every read of `system_clock` takes the next value of `clock`, so a result that
quantifies over `clock` covers every way time may pass, backwards included.
The eviction loops of the source need not end: `evictOne` refuses to evict the
empty key.  They take a fuel argument here and `none` says that the fuel ran
out; an operation returns exactly when some fuel is enough for it.

Sizes of cached vectors are natural numbers, since the vectors are all in
memory and their sizes cannot add up to `2^64`.  Subtraction is the one place
where the unsigned counters could wrap, and `sub64` keeps that behaviour.
-/

namespace ElioP2P.Cache

open ElioP2P.Library

inductive HeatLevel where
  | cold
  | warm
  | hot
  deriving DecidableEq, Repr

def HeatLevel.toNat : HeatLevel → Nat
  | .cold => 0
  | .warm => 1
  | .hot => 2

structure Chunk where
  key : Bytes
  data : Bytes
  lastAccessTime : UInt64
  creationTime : UInt64
  accessCount : UInt64 := 0
  replicaCount : UInt32 := 1
  heatLevel : HeatLevel := .cold
  deriving DecidableEq

def Chunk.size (c : Chunk) : Nat := c.data.length

structure CacheStats where
  totalItems : UInt64 := 0
  totalBytes : UInt64 := 0
  hits : UInt64 := 0
  misses : UInt64 := 0
  evictions : UInt64 := 0
  hotItems : UInt64 := 0
  warmItems : UInt64 := 0
  coldItems : UInt64 := 0
  deriving DecidableEq

/-- What the constructor and `set_heat_thresholds` fix. -/
structure LRUConfig where
  float : FloatArith
  maxCapacity : Nat
  weightTime : ℚ := 1
  weightReplica : ℚ := 1 / 2
  weightHeat : ℚ := 3 / 10
  hotThreshold : UInt32 := 100
  warmThreshold : UInt32 := 10
  evictionProtectionSec : UInt64 := 60

/-- `lruList` holds the keys from the most to the least recently used.  Each
list node carries an identity, which is what a stored iterator designates. -/
structure LRUCache where
  config : LRUConfig
  clock : Nat → UInt64
  ticks : Nat
  currentSize : Nat
  stats : CacheStats
  lruList : List (Nat × Bytes)
  nextNode : Nat
  cache : AList (fun _ : Bytes => Chunk)
  lruMap : AList (fun _ : Bytes => Nat)

def sub64 (a b : Nat) : Nat := if b ≤ a then a - b else a + 2 ^ 64 - b

theorem sub64_of_le {a b : Nat} (h : b ≤ a) : sub64 a b = a - b := if_pos h

/-! ## Heat and eviction score -/

/-- `Chunk::compute_heat_level`.  A clock behind the last access makes the
elapsed time wrap, not go negative. -/
def Chunk.computeHeatLevel (float : FloatArith) (currentTime : UInt64)
    (hotThreshold warmThreshold : UInt32) (c : Chunk) : Chunk :=
  let elapsed := float.f64 (currentTime - c.lastAccessTime).toNat
  let hours := float.f64 (elapsed / 3600)
  let hours := if hours ≤ 0 then float.f64 (1 / 100) else hours
  let accessesPerHour := float.f64 (float.f64 c.accessCount.toNat / hours)
  let level :=
    if (hotThreshold.toNat : ℚ) < accessesPerHour then HeatLevel.hot
    else if (warmThreshold.toNat : ℚ) ≤ accessesPerHour then HeatLevel.warm
    else HeatLevel.cold
  { c with heatLevel := level }

/-- `Chunk::compute_eviction_score`: the first two products are single
precision, the heat product and the last sum double. -/
def Chunk.computeEvictionScore (config : LRUConfig) (currentTime : UInt64)
    (c : Chunk) : ℚ :=
  let f32 := config.float.f32
  let f64 := config.float.f64
  let timeSinceAccess := f64 (currentTime - c.lastAccessTime).toNat
  let timeTerm := f32 (config.weightTime * f32 timeSinceAccess)
  let replicaTerm := f32 (config.weightReplica * f32 c.replicaCount.toNat)
  let heatTerm := f64 (config.weightHeat * c.heatLevel.toNat)
  f32 (f64 (f32 (timeTerm + replicaTerm) + heatTerm))

namespace LRUCache

/-- An empty cache whose clock readings are `clock 0, clock 1, ...`. -/
def new (config : LRUConfig) (clock : Nat → UInt64) : LRUCache where
  config := config
  clock := clock
  ticks := 0
  currentSize := 0
  stats := {}
  lruList := []
  nextNode := 0
  cache := ∅
  lruMap := ∅

def currentTime (s : LRUCache) : UInt64 × LRUCache :=
  (s.clock s.ticks, { s with ticks := s.ticks + 1 })

/-- Erase a list node through a stored iterator. -/
def eraseNode (nodes : List (Nat × Bytes)) (node : Nat) : List (Nat × Bytes) :=
  nodes.filter fun entry => entry.1 != node

def pushFront (s : LRUCache) (key : Bytes) : LRUCache :=
  { s with
    lruList := (s.nextNode, key) :: s.lruList
    lruMap := s.lruMap.insert key s.nextNode
    nextNode := s.nextNode + 1 }

def touch (s : LRUCache) (key : Bytes) : LRUCache :=
  match s.lruMap.lookup key with
  | some node => pushFront { s with lruList := eraseNode s.lruList node } key
  | none => s

/-! ## Eviction -/

def evictionSampleSize : Nat := 32

/-- One candidate of the sampling loop: protected entries and entries without
a chunk are skipped, and a strictly higher score takes over. -/
def considerCandidate (s : LRUCache) (now : UInt64) (best : Bytes × ℚ)
    (key : Bytes) : Bytes × ℚ :=
  match s.cache.lookup key with
  | none => best
  | some chunk =>
      if now - chunk.lastAccessTime < s.config.evictionProtectionSec then best
      else
        let score := chunk.computeEvictionScore s.config now
        if best.2 < score then (key, score) else best

def selectEvictionTarget (s : LRUCache) : Bytes × LRUCache :=
  if s.lruList.isEmpty then ([], s)
  else
    let (now, s) := s.currentTime
    let sample := (s.lruList.reverse.take evictionSampleSize).map Prod.snd
    let best := sample.foldl (s.considerCandidate now) ([], -1)
    -- Nothing eligible: fall back to the oldest entry.
    let target := if best.1.isEmpty then (s.lruList.getLast?.map Prod.snd).getD [] else best.1
    (target, s)

def unlink (s : LRUCache) (key : Bytes) : LRUCache :=
  match s.lruMap.lookup key with
  | some node =>
      { s with
        lruList := eraseNode s.lruList node
        lruMap := s.lruMap.erase key }
  | none => s

/-- The part of `evict_one` after a target has been found. -/
def evictKey (s : LRUCache) (key : Bytes) : LRUCache :=
  let s := s.unlink key
  match s.cache.lookup key with
  | some chunk =>
      { s with
        currentSize := sub64 s.currentSize chunk.size
        cache := s.cache.erase key
        stats := { s.stats with evictions := s.stats.evictions + 1 } }
  | none => s

def evictOne (s : LRUCache) : LRUCache :=
  if s.lruList.isEmpty then s
  else
    let (key, s) := s.selectEvictionTarget
    if key.isEmpty then s else s.evictKey key

/-- `while (cond && !lru_list_.empty()) evict_one();` -/
def evictWhile (cond : LRUCache → Bool) : Nat → LRUCache → Option LRUCache
  | fuel, s =>
      if cond s && !s.lruList.isEmpty then
        match fuel with
        | 0 => none
        | fuel + 1 => evictWhile cond fuel s.evictOne
      else some s

/-- `static_cast<float>(size) / max_capacity_ > threshold`.  Division by a zero
capacity gives infinity, or NaN for an empty cache, and NaN compares false. -/
def usageAbove (config : LRUConfig) (size : Nat) (threshold : ℚ) : Bool :=
  let f32 := config.float.f32
  if config.maxCapacity = 0 then decide (0 < size)
  else decide (f32 threshold < f32 (f32 size / f32 config.maxCapacity))

/-- Usage at which `maybe_evict` starts, and the one it evicts down to. -/
def evictionThreshold : ℚ := 4 / 5

def evictionTarget : ℚ := 3 / 5

def aboveTarget (s : LRUCache) : Bool :=
  usageAbove s.config s.currentSize evictionTarget

def maybeEvict (fuel : Nat) (s : LRUCache) : Option LRUCache :=
  if usageAbove s.config s.currentSize evictionThreshold then
    evictWhile aboveTarget fuel s
  else some s

def evictToTarget (fuel : Nat) (s : LRUCache) : Option LRUCache :=
  evictWhile aboveTarget fuel s

/-! ## The public operations -/

def get (s : LRUCache) (key : Bytes) : Option Chunk × LRUCache :=
  match s.cache.lookup key with
  | none => (none, { s with stats := { s.stats with misses := s.stats.misses + 1 } })
  | some chunk =>
      let s := s.touch key
      let s := { s with stats := { s.stats with hits := s.stats.hits + 1 } }
      let (now, s) := s.currentTime
      let chunk := { chunk with
        lastAccessTime := now
        accessCount := chunk.accessCount + 1 }
      let chunk := chunk.computeHeatLevel s.config.float now
        s.config.hotThreshold s.config.warmThreshold
      (some chunk, { s with cache := s.cache.insert key chunk })

/-- `std::make_shared<Chunk>(key, data)`: both times are one clock reading. -/
def makeChunk (s : LRUCache) (key data : Bytes) : Chunk × LRUCache :=
  let (now, s) := s.currentTime
  ({ key := key, data := data, lastAccessTime := now, creationTime := now }, s)

def overflowsWith (size : Nat) (s : LRUCache) : Bool :=
  s.config.maxCapacity < s.currentSize + size

/-- The part of `put` after room has been made, up to the final eviction
check. -/
def insertNew (s : LRUCache) (key data : Bytes) : LRUCache :=
  let (chunk, s) := s.makeChunk key data
  let s := { s with cache := s.cache.insert key chunk }
  let s := s.pushFront key
  let s := { s with
    currentSize := s.currentSize + data.length
    stats := { s.stats with
      totalItems := s.stats.totalItems + 1
      totalBytes := s.stats.totalBytes + UInt64.ofNat data.length } }
  let (now, s) := s.currentTime
  let chunk := chunk.computeHeatLevel s.config.float now
    s.config.hotThreshold s.config.warmThreshold
  { s with cache := s.cache.insert key chunk }

def put (fuel : Nat) (s : LRUCache) (key data : Bytes) : Option (Bool × LRUCache) :=
  if s.config.maxCapacity < data.length then some (false, s)
  else
    match s.cache.lookup key with
    | some old =>
        let s := { s with currentSize := sub64 s.currentSize old.size }
        let (chunk, s) := s.makeChunk key data
        let s := { s with
          cache := s.cache.insert key chunk
          currentSize := s.currentSize + data.length }
        some (true, s.touch key)
    | none => do
        let s ← evictWhile (overflowsWith data.length) fuel s
        let s ← maybeEvict fuel (s.insertNew key data)
        some (true, s)

def remove (s : LRUCache) (key : Bytes) : Bool × LRUCache :=
  match s.cache.lookup key with
  | none => (false, s)
  | some chunk =>
      let s := { s with
        currentSize := sub64 s.currentSize chunk.size
        stats := { s.stats with
          totalItems := s.stats.totalItems - 1
          totalBytes := s.stats.totalBytes - UInt64.ofNat chunk.size } }
      let s := s.unlink key
      (true, { s with cache := s.cache.erase key })

def updateChunkMetadata (s : LRUCache) (key : Bytes) (replicaCount : UInt32)
    (heatLevel : HeatLevel) : LRUCache :=
  match s.cache.lookup key with
  | none => s
  | some chunk =>
      { s with
        cache := s.cache.insert key
          { chunk with replicaCount := replicaCount, heatLevel := heatLevel } }

def clear (s : LRUCache) : LRUCache :=
  { s with
    cache := ∅
    lruList := []
    lruMap := ∅
    currentSize := 0
    stats := {} }

/-- `LRUCache::exists`; the name is a keyword here. -/
def contains (s : LRUCache) (key : Bytes) : Bool := (s.cache.lookup key).isSome

def setHeatThresholds (s : LRUCache) (hotThreshold warmThreshold : UInt32) : LRUCache :=
  { s with
    config := { s.config with hotThreshold := hotThreshold, warmThreshold := warmThreshold } }

def countHeat (s : LRUCache) (level : HeatLevel) : Nat :=
  s.cache.entries.countP fun entry => entry.2.heatLevel == level

def updateHeatCounts (s : LRUCache) : LRUCache :=
  let (now, s) := s.currentTime
  let s := { s with
    cache := mapValues (fun _ chunk => chunk.computeHeatLevel s.config.float now
      s.config.hotThreshold s.config.warmThreshold) s.cache }
  { s with
    stats := { s.stats with
      hotItems := UInt64.ofNat (s.countHeat .hot)
      warmItems := UInt64.ofNat (s.countHeat .warm)
      coldItems := UInt64.ofNat (s.countHeat .cold) } }

/-- `LRUCache::stats`, which changes the heat levels. -/
def readStats (s : LRUCache) : CacheStats × LRUCache :=
  let s := s.updateHeatCounts
  (s.stats, s)

/-! ## Runs -/

inductive Op where
  | put (key data : Bytes)
  | get (key : Bytes)
  | remove (key : Bytes)
  | clear
  | updateChunkMetadata (key : Bytes) (replicaCount : UInt32) (heatLevel : HeatLevel)
  | maybeEvict
  | evictToTarget

def apply (fuel : Nat) (s : LRUCache) : Op → Option LRUCache
  | .put key data => (s.put fuel key data).map Prod.snd
  | .get key => some (s.get key).2
  | .remove key => some (s.remove key).2
  | .clear => some s.clear
  | .updateChunkMetadata key replicaCount heatLevel =>
      some (s.updateChunkMetadata key replicaCount heatLevel)
  | .maybeEvict => s.maybeEvict fuel
  | .evictToTarget => s.evictToTarget fuel

inductive Call where
  | op (op : Op)
  | stats
  | setHeatThresholds (hotThreshold warmThreshold : UInt32)

def call (fuel : Nat) (s : LRUCache) : Call → Option LRUCache
  | .op op => s.apply fuel op
  | .stats => some s.readStats.2
  | .setHeatThresholds hotThreshold warmThreshold =>
      some (s.setHeatThresholds hotThreshold warmThreshold)

end LRUCache

end ElioP2P.Cache
