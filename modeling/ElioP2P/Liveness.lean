import ElioP2P.Cache.LRUCache
import ElioP2P.Control.Server
import ElioP2P.P2P.NodeDiscovery

/-!
# Liveness tests and the clock of others

A peer, a node of the control plane and a chunk that has just been used are all
told by the age of a time stamp, an unsigned difference.  A time stamp ahead of
the clock has an age of almost `2^64` seconds, and what was heard from last of
all is taken for the oldest.
-/

namespace ElioP2P

open ElioP2P.Library

/-! ## Ages -/

def age (now t : UInt64) : Nat := (now - t).toNat

/-- When a test for an age below `bound` that lets `t` pass lets `t'` pass, too:
`t'` is not ahead of the clock, or the test does not let `t` pass, or `t'` is so
far ahead that its age has come round to small values again. -/
def StaysFresh (bound : Nat) (now t t' : UInt64) : Prop :=
  t' ≤ now ∨ bound ≤ age now t ∨ 2 ^ 64 < bound + (t'.toNat - now.toNat)

instance (bound : Nat) (now t t' : UInt64) : Decidable (StaysFresh bound now t t') :=
  inferInstanceAs (Decidable (_ ∨ _))

theorem age_of_le {now t : UInt64} (h : t ≤ now) : age now t = now.toNat - t.toNat :=
  UInt64.toNat_sub_of_le now t h

theorem age_of_lt {now t : UInt64} (h : now < t) :
    age now t = 2 ^ 64 - (t.toNat - now.toNat) := by
  have hlt := UInt64.lt_iff_toNat_lt.mp h
  have ht := t.toNat_lt
  rw [age, UInt64.toNat_sub, Nat.mod_eq_of_lt (by omega)]
  omega

theorem staysFresh_iff {now t t' : UInt64} (h : t ≤ t') (bound : Nat) :
    (age now t < bound → age now t' < bound) ↔ StaysFresh bound now t t' := by
  have hle := UInt64.le_iff_toNat_le.mp h
  rw [StaysFresh]
  by_cases hahead : t' ≤ now
  · have hbehind := UInt64.le_iff_toNat_le.mp hahead
    rw [age_of_le hahead, age_of_le (UInt64.le_trans h hahead)]
    exact iff_of_true (fun hlt => by omega) (.inl hahead)
  · have hage := age_of_lt (UInt64.not_le.mp hahead)
    have hlt := UInt64.lt_iff_toNat_lt.mp (UInt64.not_le.mp hahead)
    have ht' := t'.toNat_lt
    simp only [hahead, false_or]
    omega

/-! ## The three tests -/

/-- `select_eviction_target` passes over a candidate, however good it is. -/
def Cache.LRUCache.PassesOver (s : Cache.LRUCache) (now : UInt64) (key : Bytes) : Prop :=
  ∀ best, s.considerCandidate now best key = best

theorem passesOver_iff {s : Cache.LRUCache} {now : UInt64} {key : Bytes} {chunk : Cache.Chunk}
    (hchunk : s.cache.lookup key = some chunk) :
    s.PassesOver now key ↔
      age now chunk.lastAccessTime < s.config.evictionProtectionSec.toNat := by
  rw [age, ← UInt64.lt_iff_toNat_lt]
  constructor
  · intro hpasses
    by_contra hfree
    have htaken := hpasses ([], chunk.computeEvictionScore s.config now - 1)
    rw [Cache.LRUCache.considerCandidate, hchunk] at htaken
    simp only [if_neg hfree, sub_lt_self_iff, zero_lt_one, if_true, Prod.mk.injEq] at htaken
    linarith [htaken.2]
  · intro hprotected best
    rw [Cache.LRUCache.considerCandidate, hchunk]
    exact if_pos hprotected

def Cache.LRUCache.accessedAt (s : Cache.LRUCache) (key : Bytes) (chunk : Cache.Chunk)
    (t : UInt64) : Cache.LRUCache :=
  { s with cache := s.cache.insert key { chunk with lastAccessTime := t } }

theorem passesOver_accessedAt (s : Cache.LRUCache) (now : UInt64) (key : Bytes)
    (chunk : Cache.Chunk) (t : UInt64) :
    (s.accessedAt key chunk t).PassesOver now key ↔
      age now t < s.config.evictionProtectionSec.toNat :=
  passesOver_iff (s := s.accessedAt key chunk t) (AList.lookup_insert s.cache)

theorem isActive_iff (s : P2P.NodeDiscovery) (peer : P2P.PeerNode) :
    (s.isActive peer).1 = true ↔ age s.currentSeconds.1 peer.lastSeen < 300 := by
  rw [age, P2P.NodeDiscovery.isActive, decide_eq_true_iff, UInt64.lt_iff_toNat_lt]
  rfl

theorem isNodeActive_iff (heartbeatTimeoutSec : UInt32) (now : UInt64) (node : Control.NodeInfo) :
    node.isActive heartbeatTimeoutSec now = true ↔
      age now node.lastHeartbeatTime < heartbeatTimeoutSec.toNat + 1 := by
  rw [age, Control.NodeInfo.isActive, decide_eq_true_iff, UInt64.le_iff_toNat_le,
    UInt32.toNat_toUInt64, Nat.lt_succ_iff]

/-- Each of the tests that a time stamp passes is passed by a later one exactly
if the later one is not ahead of the clock, or so far that it does not matter
again. -/
theorem liveness_monotone_iff {t t' : UInt64} (h : t ≤ t') (s : P2P.NodeDiscovery)
    (peer : P2P.PeerNode) (heartbeatTimeoutSec : UInt32) (node : Control.NodeInfo)
    (m : Cache.LRUCache) (key : Bytes) (chunk : Cache.Chunk) (now : UInt64) :
    (((s.isActive { peer with lastSeen := t }).1 = true →
        (s.isActive { peer with lastSeen := t' }).1 = true) ↔
      StaysFresh 300 s.currentSeconds.1 t t') ∧
    (({ node with lastHeartbeatTime := t }.isActive heartbeatTimeoutSec now = true →
        { node with lastHeartbeatTime := t' }.isActive heartbeatTimeoutSec now = true) ↔
      StaysFresh (heartbeatTimeoutSec.toNat + 1) now t t') ∧
    (((m.accessedAt key chunk t).PassesOver now key →
        (m.accessedAt key chunk t').PassesOver now key) ↔
      StaysFresh m.config.evictionProtectionSec.toNat now t t') := by
  simp only [isActive_iff, isNodeActive_iff, passesOver_accessedAt]
  exact ⟨staysFresh_iff h _, staysFresh_iff h _, staysFresh_iff h _⟩

/-! ## One second ahead -/

def sampleDiscovery : P2P.NodeDiscovery := .new 50 (fun _ => 1000000) (fun _ => 0) fun _ => .id

def sampleNodeInfo : Control.NodeInfo := { registration := { nodeId := ascii "n", address := [] } }

def sampleCache : Cache.LRUCache :=
  .new { float := .ieee, maxCapacity := 4 } fun _ => 1000

def sampleChunk : Cache.Chunk := (sampleCache.makeChunk (ascii "c") [1]).1

/-- Time stamps of the past, which pass all three tests. -/
theorem liveness_monotone_past :
    ((sampleDiscovery.isActive { lastSeen := 950 }).1 = true ∧
        (sampleDiscovery.isActive { lastSeen := 980 }).1 = true) ∧
      ({ sampleNodeInfo with lastHeartbeatTime := 950 }.isActive 90 1000 = true ∧
        { sampleNodeInfo with lastHeartbeatTime := 980 }.isActive 90 1000 = true) ∧
      (sampleCache.accessedAt (ascii "c") sampleChunk 950).PassesOver 1000 (ascii "c") ∧
        (sampleCache.accessedAt (ascii "c") sampleChunk 980).PassesOver 1000 (ascii "c") := by
  have hle : (950 : UInt64) ≤ 980 := by decide
  have hpassed : (sampleCache.accessedAt (ascii "c") sampleChunk 950).PassesOver 1000
      (ascii "c") := by
    rw [passesOver_accessedAt]
    decide
  obtain ⟨hpeer, hnode, hchunk⟩ := liveness_monotone_iff hle sampleDiscovery {} 90
    sampleNodeInfo sampleCache (ascii "c") sampleChunk 1000
  exact ⟨⟨by decide, hpeer.mpr (by decide) (by decide)⟩,
    ⟨by decide, hnode.mpr (by decide) (by decide)⟩, hpassed, hchunk.mpr (by decide) hpassed⟩

/-- At second 1000 all three tests let the time stamp 1000 pass, and none of
them the time stamp 1001. -/
theorem not_liveness_monotone_ahead :
    ((sampleDiscovery.isActive { lastSeen := 1000 }).1 = true ∧
        (sampleDiscovery.isActive { lastSeen := 1001 }).1 = false) ∧
      ({ sampleNodeInfo with lastHeartbeatTime := 1000 }.isActive 90 1000 = true ∧
        { sampleNodeInfo with lastHeartbeatTime := 1001 }.isActive 90 1000 = false) ∧
      (sampleCache.accessedAt (ascii "c") sampleChunk 1000).PassesOver 1000 (ascii "c") ∧
        ¬ (sampleCache.accessedAt (ascii "c") sampleChunk 1001).PassesOver 1000 (ascii "c") := by
  rw [passesOver_accessedAt, passesOver_accessedAt]
  decide

end ElioP2P
