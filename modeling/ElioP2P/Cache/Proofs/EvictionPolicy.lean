import ElioP2P.Cache.Proofs.AccessTimes
import Mathlib.Data.List.MinMax
import Mathlib.Tactic.Positivity

/-!
# Which entry an eviction takes

Among the unprotected entries of its sample `evict_one` takes the one with the
highest score, and the score grows with the idle time, the replica count and
the heat.  An entry that is preferable in the first two and as hot is never
passed over; one that is preferable because it is colder can be.  When the
highest score belongs to the empty key, the oldest entry goes instead.
-/

namespace ElioP2P.Cache

open ElioP2P.Library

/-- `y` is the better one to lose: idle at least as long, replicated at least
as often, at most as hot, and one of them strictly. -/
def Chunk.PreferableTo (y x : Chunk) : Prop :=
  y.lastAccessTime ≤ x.lastAccessTime ∧ x.replicaCount ≤ y.replicaCount ∧
    y.heatLevel.toNat ≤ x.heatLevel.toNat ∧
      (y.lastAccessTime < x.lastAccessTime ∨ x.replicaCount < y.replicaCount ∨
        y.heatLevel.toNat < x.heatLevel.toNat)

def Chunk.ColderSpare (y x : Chunk) : Prop :=
  y.heatLevel.toNat < x.heatLevel.toNat ∧ y.lastAccessTime ≤ x.lastAccessTime ∧
    x.replicaCount ≤ y.replicaCount

instance (y x : Chunk) : Decidable (y.PreferableTo x) :=
  inferInstanceAs (Decidable (_ ∧ _ ∧ _ ∧ (_ ∨ _ ∨ _)))

instance (y x : Chunk) : Decidable (y.ColderSpare x) := inferInstanceAs (Decidable (_ ∧ _ ∧ _))

theorem Chunk.ColderSpare.preferableTo {x y : Chunk} (h : y.ColderSpare x) : y.PreferableTo x :=
  ⟨h.2.1, h.2.2, h.1.le, Or.inr (Or.inr h.1)⟩

namespace LRUCache

/-- The cache with scores that are not rounded. -/
def withExactScores (s : LRUCache) : LRUCache :=
  { s with config := { s.config with float := FloatArith.exact } }

def evictionCandidates (s : LRUCache) : List (Bytes × Chunk) :=
  ((s.lruList.reverse.take evictionSampleSize).map Prod.snd).filterMap fun key =>
    (s.cache.lookup key).bind fun chunk =>
      if s.clock s.ticks - chunk.lastAccessTime < s.config.evictionProtectionSec then none
      else some (key, chunk)

def SparesPreferable (s : LRUCache) : Prop :=
  ∀ key chunk, s.cache.lookup key = some chunk → s.evictOne.cache.lookup key = none →
    ∀ y ∈ s.evictionCandidates, y.1 ≠ key → ¬ y.2.PreferableTo chunk

def candidateScore (s : LRUCache) (y : Bytes × Chunk) : ℚ :=
  y.2.computeEvictionScore s.config (s.clock s.ticks)

def topCandidate (s : LRUCache) : Option (Bytes × Chunk) :=
  s.evictionCandidates.argmax s.candidateScore

/-- The candidate with the highest score has no colder one beside it that is
idle as long and as much replicated.  If it has the empty key, the oldest entry
has no preferable candidate beside it, or the empty key too. -/
def HeatHarmless (s : LRUCache) : Prop :=
  ∀ top ∈ s.topCandidate,
    if top.1 = [] then
      ∀ oldest ∈ s.keys.getLast?, oldest ≠ [] → ∀ chunk ∈ s.cache.lookup oldest,
        ∀ y ∈ s.evictionCandidates, y.1 ≠ oldest → ¬ y.2.PreferableTo chunk
    else ∀ y ∈ s.evictionCandidates, ¬ y.2.ColderSpare top.2

/-! ## The sampling loop takes the highest score -/

theorem mem_evictionCandidates {s : LRUCache} {y : Bytes × Chunk}
    (hy : y ∈ s.evictionCandidates) : s.cache.lookup y.1 = some y.2 := by
  obtain ⟨key, -, hkey⟩ := List.mem_filterMap.mp hy
  obtain ⟨chunk, hchunk, hfree⟩ := Option.bind_eq_some_iff.mp hkey
  split at hfree
  · cases hfree
  · cases hfree
    exact hchunk

theorem foldl_considerCandidate_eq (s : LRUCache) (best : Bytes × ℚ) (sample : List Bytes) :
    sample.foldl (s.considerCandidate (s.clock s.ticks)) best =
      (sample.filterMap fun key => (s.cache.lookup key).bind fun chunk =>
        if s.clock s.ticks - chunk.lastAccessTime < s.config.evictionProtectionSec then none
        else some (key, chunk)).foldl
          (fun best y => if best.2 < s.candidateScore y then (y.1, s.candidateScore y) else best)
          best := by
  induction sample generalizing best with
  | nil => rfl
  | cons key sample ih =>
      rw [List.foldl_cons, ih, List.filterMap_cons]
      unfold considerCandidate
      cases s.cache.lookup key with
      | none => rfl
      | some chunk =>
          simp only [Option.bind_some]
          split <;> rfl

/-- Keeping the best item so far, and the earlier of equals, comes to the first
item with the highest score. -/
theorem foldl_keepBest {α κ : Type*} (label : α → κ) (score : α → ℚ) (start : κ × ℚ)
    (items : List α) (habove : ∀ a ∈ items, start.2 < score a) :
    items.foldl (fun best a => if best.2 < score a then (label a, score a) else best) start =
      (items.argmax score).elim start fun a => (label a, score a) := by
  induction items using List.reverseRecOn with
  | nil => rfl
  | append_singleton items a ih =>
      rw [List.foldl_append, List.foldl_cons, List.foldl_nil,
        ih fun b hb => habove b (List.mem_append_left _ hb), List.argmax_concat]
      cases items.argmax score with
      | none => exact if_pos (habove a (by simp))
      | some best =>
          by_cases hlt : score best < score a
          · simp [hlt]
          · simp [hlt]

def bestCandidate (s : LRUCache) : Bytes × ℚ :=
  s.evictionCandidates.foldl
    (fun best y => if best.2 < s.candidateScore y then (y.1, s.candidateScore y) else best) ([], -1)

/-- The target is the best candidate, or else the oldest key. -/
theorem selectEvictionTarget_best {s : LRUCache} (hne : s.lruList ≠ []) :
    s.selectEvictionTarget =
      (if s.bestCandidate.1.isEmpty then s.keys.getLast?.getD [] else s.bestCandidate.1,
        { s with ticks := s.ticks + 1 }) := by
  have hbest : ((s.lruList.reverse.take evictionSampleSize).map Prod.snd).foldl
      (s.considerCandidate (s.clock s.ticks)) ([], -1) = s.bestCandidate :=
    foldl_considerCandidate_eq s ([], -1) _
  rw [← hbest, keys, List.getLast?_map]
  unfold selectEvictionTarget
  rw [if_neg (by simpa using hne)]
  rfl

theorem selectEvictionTarget_top {s : LRUCache} (hne : s.lruList ≠ [])
    (hscore : ∀ y ∈ s.evictionCandidates, -1 < s.candidateScore y) :
    s.selectEvictionTarget.1 =
      if (s.topCandidate.elim [] Prod.fst).isEmpty then s.keys.getLast?.getD []
      else s.topCandidate.elim [] Prod.fst := by
  have htop : s.bestCandidate.1 = s.topCandidate.elim [] Prod.fst := by
    have hbest := foldl_keepBest Prod.fst s.candidateScore ([], -1) s.evictionCandidates hscore
    rw [bestCandidate, hbest, ← topCandidate]
    cases s.topCandidate <;> rfl
  rw [selectEvictionTarget_best hne, htop]

theorem lookup_evictOne_eq_none_iff {s : LRUCache} (hne : s.lruList ≠ []) {key : Bytes}
    {chunk : Chunk} (hchunk : s.cache.lookup key = some chunk) :
    s.evictOne.cache.lookup key = none ↔
      key = s.selectEvictionTarget.1 ∧ key ≠ [] := by
  unfold evictOne
  rw [if_neg (by simpa using hne)]
  simp only
  split
  · rename_i hempty
    rw [List.isEmpty_iff] at hempty
    rw [cache_selectEvictionTarget, hchunk]
    refine iff_of_false nofun ?_
    rintro ⟨rfl, hkey⟩
    exact hkey hempty
  · rename_i hkey
    rw [cache_evictKey, cache_selectEvictionTarget]
    by_cases heq : key = s.selectEvictionTarget.1
    · rw [heq, AList.lookup_erase]
      refine iff_of_true rfl ⟨rfl, fun hnil => hkey ?_⟩
      rw [hnil]
      rfl
    · rw [AList.lookup_erase_ne heq, hchunk]
      exact iff_of_false nofun fun h => heq h.1

/-! ## Exact scores -/

structure PositiveWeights (config : LRUConfig) : Prop where
  time : 0 < config.weightTime
  replica : 0 < config.weightReplica
  heat : 0 < config.weightHeat

theorem candidateScore_exact (s : LRUCache) (y : Bytes × Chunk) :
    s.withExactScores.candidateScore y =
      s.config.weightTime * (s.clock s.ticks - y.2.lastAccessTime).toNat +
        s.config.weightReplica * y.2.replicaCount.toNat +
          s.config.weightHeat * y.2.heatLevel.toNat := by
  rfl

theorem candidateScore_nonneg {s : LRUCache} (hweights : PositiveWeights s.config)
    (y : Bytes × Chunk) : -1 < s.withExactScores.candidateScore y := by
  obtain ⟨htime, hreplica, hheat⟩ := hweights
  rw [candidateScore_exact]
  have hnonneg : 0 ≤ s.config.weightTime * ((s.clock s.ticks - y.2.lastAccessTime).toNat : ℚ) +
      s.config.weightReplica * (y.2.replicaCount.toNat : ℚ) +
        s.config.weightHeat * (y.2.heatLevel.toNat : ℚ) := by
    positivity
  linarith

/-- A candidate that is preferable to another with no higher score is colder. -/
theorem colderSpare_of_preferableTo {s : LRUCache} (hweights : PositiveWeights s.config)
    {x y : Bytes × Chunk} (hx : x.2.lastAccessTime ≤ s.clock s.ticks)
    (hscore : s.withExactScores.candidateScore y ≤ s.withExactScores.candidateScore x)
    (hprefer : y.2.PreferableTo x.2) : y.2.ColderSpare x.2 := by
  obtain ⟨htime, hreplica, hheat⟩ := hweights
  obtain ⟨hidle, hcopies, hcold, hstrict⟩ := hprefer
  refine ⟨?_, hidle, hcopies⟩
  by_contra hsame
  have hheatEq : y.2.heatLevel.toNat = x.2.heatLevel.toNat := by omega
  have hy : y.2.lastAccessTime ≤ s.clock s.ticks := UInt64.le_trans hidle hx
  rw [candidateScore_exact, candidateScore_exact, hheatEq,
    UInt64.toNat_sub_of_le _ _ hx, UInt64.toNat_sub_of_le _ _ hy] at hscore
  have hidle' : y.2.lastAccessTime.toNat ≤ x.2.lastAccessTime.toNat :=
    UInt64.le_iff_toNat_le.mp hidle
  have hx' : x.2.lastAccessTime.toNat ≤ (s.clock s.ticks).toNat := UInt64.le_iff_toNat_le.mp hx
  have hcopies' : x.2.replicaCount.toNat ≤ y.2.replicaCount.toNat :=
    UInt32.le_iff_toNat_le.mp hcopies
  rw [Nat.cast_sub hx', Nat.cast_sub (hidle'.trans hx')] at hscore
  have htimeGap : 0 ≤ (x.2.lastAccessTime.toNat : ℚ) - y.2.lastAccessTime.toNat := by
    rw [sub_nonneg]
    exact_mod_cast hidle'
  have hcopiesGap : 0 ≤ (y.2.replicaCount.toNat : ℚ) - x.2.replicaCount.toNat := by
    rw [sub_nonneg]
    exact_mod_cast hcopies'
  have htimeTerm := mul_nonneg htime.le htimeGap
  have hcopiesTerm := mul_nonneg hreplica.le hcopiesGap
  -- One of the two differences is positive, and so is its share of the score.
  rcases hstrict with hlonger | hmore | hcolder
  · have hgap : 0 < (x.2.lastAccessTime.toNat : ℚ) - y.2.lastAccessTime.toNat := by
      rw [sub_pos]
      exact_mod_cast UInt64.lt_iff_toNat_lt.mp hlonger
    have hterm := mul_pos htime hgap
    linarith
  · have hgap : 0 < (y.2.replicaCount.toNat : ℚ) - x.2.replicaCount.toNat := by
      rw [sub_pos]
      exact_mod_cast UInt32.lt_iff_toNat_lt.mp hmore
    have hterm := mul_pos hreplica hgap
    linarith
  · exact hsame hcolder

/-- Beside the candidate with the highest score there is a preferable one
exactly when there is a colder one as idle and as much replicated. -/
theorem no_preferable_iff_of_top {s : LRUCache} (hweights : PositiveWeights s.config)
    {top : Bytes × Chunk} (htop : s.withExactScores.topCandidate = some top)
    (hnow : top.2.lastAccessTime ≤ s.clock s.ticks) :
    (∀ y ∈ s.evictionCandidates, y.1 ≠ top.1 → ¬ y.2.PreferableTo top.2) ↔
      ∀ y ∈ s.evictionCandidates, ¬ y.2.ColderSpare top.2 := by
  constructor
  · intro hspares y hy hcolder
    refine hspares y hy ?_ hcolder.preferableTo
    intro hsame
    have hlookup := mem_evictionCandidates hy
    have htopChunk : s.cache.lookup top.1 = some top.2 :=
      mem_evictionCandidates (List.argmax_mem htop)
    rw [hsame, htopChunk, Option.some.injEq] at hlookup
    rw [hlookup] at hcolder
    exact Nat.lt_irrefl _ hcolder.1
  · intro hharmless y hy _ hprefer
    have hle : s.withExactScores.candidateScore y ≤ s.withExactScores.candidateScore top :=
      List.le_of_mem_argmax hy htop
    exact hharmless y hy (colderSpare_of_preferableTo hweights hnow hle hprefer)

/-! ## The policy is about the target -/

theorem sparesPreferable_iff_target {s : LRUCache} (hne : s.lruList ≠ []) {target : Bytes}
    (htarget : s.selectEvictionTarget.1 = target) :
    s.SparesPreferable ↔ (target ≠ [] → ∀ chunk ∈ s.cache.lookup target,
      ∀ y ∈ s.evictionCandidates, y.1 ≠ target → ¬ y.2.PreferableTo chunk) := by
  constructor
  · intro hspares hnonempty chunk hchunk
    exact hspares target chunk hchunk
      ((lookup_evictOne_eq_none_iff hne hchunk).mpr ⟨htarget.symm, hnonempty⟩)
  · intro htargetSpares key chunk hchunk hgone
    obtain ⟨rfl, hnonempty⟩ := (lookup_evictOne_eq_none_iff hne hchunk).mp hgone
    rw [htarget] at hnonempty hchunk ⊢
    exact htargetSpares hnonempty chunk hchunk

theorem sparesPreferable_iff_of_noCandidates {s : LRUCache} (h : s.evictionCandidates = []) :
    s.SparesPreferable ↔ s.HeatHarmless := by
  refine iff_of_true ?_ ?_
  · intro key chunk _ _ y hy
    rw [h] at hy
    cases hy
  · intro top htop
    rw [topCandidate, h] at htop
    cases htop

/-- When the highest score belongs to the empty key, the oldest entry goes. -/
theorem sparesPreferable_iff_of_emptyTop {s : LRUCache} (hne : s.lruList ≠ [])
    {top : Bytes × Chunk} (htop : s.topCandidate = some top) (hkey : top.1 = [])
    (htarget : s.selectEvictionTarget.1 = s.keys.getLast?.getD []) :
    s.SparesPreferable ↔ s.HeatHarmless := by
  have hlast : ∃ oldest, s.keys.getLast? = some oldest := by
    rw [keys, List.getLast?_map, List.getLast?_eq_getLast_of_ne_nil hne]
    exact ⟨_, rfl⟩
  obtain ⟨oldest, holdest⟩ := hlast
  rw [holdest, Option.getD_some] at htarget
  rw [sparesPreferable_iff_target hne htarget, HeatHarmless]
  simp only [htop, holdest, Option.mem_def, Option.some.injEq, forall_eq', if_pos hkey]

/-- The policy holds of an eviction exactly when heat does no harm in it. -/
theorem sparesPreferable_iff {s : LRUCache} (hweights : PositiveWeights s.config)
    (hstamped : s.Stamped)
    (hclock : ∀ i j, i ≤ j → s.clock i ≤ s.clock j) :
    s.withExactScores.SparesPreferable ↔ s.withExactScores.HeatHarmless := by
  by_cases hne : s.lruList = []
  · exact sparesPreferable_iff_of_noCandidates
      (by simp [evictionCandidates, withExactScores, hne])
  have htarget := selectEvictionTarget_top (s := s.withExactScores) hne
    fun y _ => candidateScore_nonneg hweights y
  cases htop : s.withExactScores.topCandidate with
  | none => exact sparesPreferable_iff_of_noCandidates (List.argmax_eq_none.mp htop)
  | some top =>
      rw [htop, Option.elim_some] at htarget
      by_cases hkey : top.1 = []
      · rw [if_pos (by rw [hkey]; rfl)] at htarget
        exact sparesPreferable_iff_of_emptyTop hne htop hkey htarget
      · -- The entry with the highest score goes.
        rw [if_neg (by simpa using hkey)] at htarget
        have hchunk : s.cache.lookup top.1 = some top.2 :=
          mem_evictionCandidates (List.argmax_mem htop)
        have hnow : top.2.lastAccessTime ≤ s.clock s.ticks := by
          obtain ⟨i, hi, htime⟩ := hstamped top.1 top.2 hchunk
          rw [htime]
          exact hclock i s.ticks hi.le
        have hthis : s.withExactScores.cache.lookup top.1 = some top.2 := hchunk
        rw [sparesPreferable_iff_target (s := s.withExactScores) hne htarget, HeatHarmless]
        simp only [htop, hthis, Option.mem_def, Option.some.injEq, forall_eq', ne_eq, hkey,
          not_false_eq_true, forall_const]
        exact no_preferable_iff_of_top hweights htop hnow

/-- In whatever state a call on a cache evicts: the policy holds of that
eviction exactly when heat does no harm in it. -/
theorem sparesPreferable_run_iff {config : LRUConfig} {clock : Nat → UInt64} {fuel : Nat}
    {calls : List Call} {s t : LRUCache} (hweights : PositiveWeights config)
    (hclock : ∀ i j, i ≤ j → clock i ≤ clock j)
    (hrun : runSteps (call fuel) (new config clock) calls = some s) (hpasses : s.Passes t) :
    t.withExactScores.SparesPreferable ↔ t.withExactScores.HeatHarmless := by
  have hlater : Later (new config clock) t := (later_run hrun).trans hpasses.later
  have hweights' : PositiveWeights t.config := by
    obtain ⟨hot, warm, hconfig⟩ := hlater.config
    rw [hconfig]
    exact ⟨hweights.time, hweights.replica, hweights.heat⟩
  apply sparesPreferable_iff hweights' (hlater.stamped nofun)
  rw [hlater.clock]
  exact hclock

def lateReading (readings i : Nat) : UInt64 := if i < readings then 0 else 100

theorem lateReading_mono (readings i j : Nat) (hij : i ≤ j) :
    lateReading readings i ≤ lateReading readings j := by
  unfold lateReading
  split <;> split
  · decide
  · decide
  · omega
  · decide

def hundredBytes : LRUConfig := { float := FloatArith.ieee, maxCapacity := 100 }

/-- Two items of one heat: the older one goes. -/
theorem sparesPreferable_run_cold :
    ∃ s, runSteps (call 0) (new hundredBytes (lateReading 4))
        [.op (.put (ascii "a") [1]), .op (.put (ascii "b") [1])] = some s ∧
      s.withExactScores.SparesPreferable := by
  have hcheck : (runSteps (call 0) (new hundredBytes (lateReading 4))
      [.op (.put (ascii "a") [1]), .op (.put (ascii "b") [1])]).any
        (fun s => s.withExactScores.topCandidate.all fun top => decide (top.1 ≠ [] ∧
          ∀ y ∈ s.withExactScores.evictionCandidates, ¬ y.2.ColderSpare top.2)) = true := by
    decide +kernel
  obtain ⟨s, hrun, hs⟩ := (Option.any_eq_true _ _).mp hcheck
  have hweights : PositiveWeights hundredBytes :=
    ⟨by decide +kernel, by decide +kernel, by decide +kernel⟩
  refine ⟨s, hrun,
    (sparesPreferable_run_iff hweights (lateReading_mono 4) hrun .here).mpr fun top htop => ?_⟩
  have hthis : decide (top.1 ≠ [] ∧
      ∀ y ∈ s.withExactScores.evictionCandidates, ¬ y.2.ColderSpare top.2) = true := by
    rw [Option.mem_def] at htop
    rw [htop] at hs
    exact hs
  obtain ⟨hkey, hcolder⟩ := of_decide_eq_true hthis
  rw [if_neg hkey]
  exact hcolder

/-- Of two items of one age the one that was read is warm, and goes. -/
theorem not_sparesPreferable_warm :
    ∃ s, runSteps (call 0) (new hundredBytes (lateReading 5))
        [.op (.put (ascii "a") [1]), .op (.put (ascii "b") [1]), .op (.get (ascii "b"))] = some s ∧
      ¬ s.withExactScores.SparesPreferable := by
  have hcheck : (runSteps (call 0) (new hundredBytes (lateReading 5))
      [.op (.put (ascii "a") [1]), .op (.put (ascii "b") [1]), .op (.get (ascii "b"))]).any
        (fun s => (s.withExactScores.cache.lookup (ascii "b")).any fun x => decide
          (s.withExactScores.evictOne.cache.lookup (ascii "b") = none ∧
            ∃ y ∈ s.withExactScores.evictionCandidates, y.1 ≠ ascii "b" ∧ y.2.PreferableTo x)) =
        true := by
    decide +kernel
  obtain ⟨s, hrun, hs⟩ := (Option.any_eq_true _ _).mp hcheck
  obtain ⟨x, hx, hs⟩ := (Option.any_eq_true _ _).mp hs
  obtain ⟨hgone, y, hy, hother, hprefer⟩ := of_decide_eq_true hs
  exact ⟨s, hrun, fun hspares => hspares _ x hx hgone y hy hother hprefer⟩

end LRUCache

end ElioP2P.Cache
