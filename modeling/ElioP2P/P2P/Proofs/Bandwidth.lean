import ElioP2P.Library.Runs
import ElioP2P.P2P.TransferManager
import Mathlib.Algebra.Order.BigOperators.Group.List
import Mathlib.Algebra.Order.Ring.Nat

/-!
# The bandwidth limiter

A call of `acquire` that finds enough left of the current second takes it and
returns; the others sleep.  A sleeper has nothing set aside for it: what it was
short of is handed out again to whoever comes after the next refill.  So the
limit holds as long as nobody sleeps, and one sleeper, however little it asks
for, is enough to break it.

Any number of calls are under way at once.  The critical section of a call is
one step, its return another one, at any time from the end of its sleep on.

The time to sleep is computed with a rate that has been divided by 1024, which
makes it about a thousand times too long.
-/

namespace ElioP2P.P2P

open ElioP2P.Library

/-! ## Calls under way -/

/-- A call that has left the critical section and returns at `ready` or later. -/
structure PendingAcquire where
  bytes : Nat
  ready : Nat

structure ReturnedAcquire where
  bytes : Nat
  time : Nat

/-- A limiter and its callers; times are readings of the steady clock in
nanoseconds. -/
structure Throttle where
  limiter : BandwidthLimiter
  now : Nat
  pending : List PendingAcquire := []
  returned : List ReturnedAcquire := []

inductive ThrottleLabel where
  | advance (ns : Nat)
  | acquire (bytes : Nat)
  | finish (call : Nat)

namespace Throttle

def initial (maxMbps start : Nat) : Throttle where
  limiter := .new maxMbps start
  now := start

def step (s : Throttle) : ThrottleLabel → Option Throttle
  | .advance ns => some { s with now := s.now + ns }
  | .acquire bytes =>
      let (wait, limiter) := s.limiter.acquire s.now bytes
      some { s with
        limiter := limiter
        pending := s.pending ++ [⟨bytes, s.now + wait.getD 0 * 10 ^ 6⟩] }
  | .finish call => do
      let pending ← s.pending[call]?
      if pending.ready ≤ s.now then
        some { s with
          pending := s.pending.eraseIdx call
          returned := ⟨pending.bytes, s.now⟩ :: s.returned }
      else none

def pendingBytes (s : Throttle) : Nat := (s.pending.map PendingAcquire.bytes).sum

def returnedBytes (s : Throttle) : Nat := (s.returned.map ReturnedAcquire.bytes).sum

def returnedBy (s : Throttle) (time : Nat) : Nat :=
  ((s.returned.filter fun call => call.time ≤ time).map ReturnedAcquire.bytes).sum

/-- `R` bytes for every second since `start` and one more second. -/
def Throttled (R start : Nat) (s : Throttle) : Prop :=
  ∀ T, s.returnedBy (start + T) * 10 ^ 9 ≤ R * (T + 10 ^ 9)

end Throttle

namespace BandwidthLimiter

/-- What a call finds, after the refill if one is due. -/
def budget (limiter : BandwidthLimiter) (now : Nat) : Nat :=
  if 10 ^ 9 ≤ now - limiter.lastReset then limiter.maxBytesPerSec else limiter.available

theorem acquire_immediate {limiter : BandwidthLimiter} {now bytes : Nat}
    (hrate : limiter.maxBytesPerSec ≠ 0) (hbytes : bytes ≤ limiter.budget now) :
    (limiter.acquire now bytes).1 = none ∧
      (limiter.acquire now bytes).2.maxBytesPerSec = limiter.maxBytesPerSec ∧
      ((limiter.acquire now bytes).2.available + bytes = limiter.available ∧
          (limiter.acquire now bytes).2.lastReset = limiter.lastReset ∨
        (limiter.acquire now bytes).2.available + bytes = limiter.maxBytesPerSec ∧
          (limiter.acquire now bytes).2.lastReset = now ∧ limiter.lastReset + 10 ^ 9 ≤ now) := by
  unfold budget at hbytes
  unfold acquire
  rw [if_neg hrate]
  have hdue : 1 ≤ (now - limiter.lastReset) / 10 ^ 9 ↔ 10 ^ 9 ≤ now - limiter.lastReset := by
    rw [Nat.le_div_iff_mul_le (by decide), Nat.one_mul]
  by_cases hrefill : 10 ^ 9 ≤ now - limiter.lastReset
  · rw [if_pos hrefill] at hbytes
    rw [if_pos (hdue.mpr hrefill), if_pos hbytes]
    exact ⟨rfl, rfl, Or.inr ⟨Nat.sub_add_cancel hbytes, rfl, by omega⟩⟩
  · rw [if_neg hrefill] at hbytes
    rw [if_neg (mt hdue.mp hrefill), if_pos hbytes]
    exact ⟨rfl, rfl, Or.inl ⟨Nat.sub_add_cancel hbytes, rfl⟩⟩

theorem acquire_refill {limiter : BandwidthLimiter} {now : Nat} (hrate : limiter.maxBytesPerSec ≠ 0)
    (hdue : limiter.lastReset + 10 ^ 9 ≤ now) :
    limiter.acquire now limiter.maxBytesPerSec =
      (none, { limiter with available := 0, lastReset := now }) := by
  have hrefill : 1 ≤ (now - limiter.lastReset) / 10 ^ 9 := by
    rw [Nat.le_div_iff_mul_le (by decide)]
    omega
  unfold acquire
  rw [if_neg hrate, if_pos hrefill]
  simp

theorem acquire_rest (limiter : BandwidthLimiter) {now : Nat} (hrate : limiter.maxBytesPerSec ≠ 0)
    (hnow : limiter.lastReset = now) :
    limiter.acquire now limiter.available = (none, { limiter with available := 0 }) := by
  have hearly : ¬ 1 ≤ (now - limiter.lastReset) / 10 ^ 9 := by
    rw [hnow, Nat.sub_self]
    decide
  unfold acquire
  rw [if_neg hrate, if_neg hearly]
  simp

theorem acquire_sleep (limiter : BandwidthLimiter) {now bytes : Nat}
    (hrate : limiter.maxBytesPerSec ≠ 0) (hnow : limiter.lastReset = now)
    (hempty : limiter.available = 0) (hbytes : 0 < bytes) :
    ∃ wait, limiter.acquire now bytes = (some wait, limiter) := by
  have hearly : ¬ 1 ≤ (now - limiter.lastReset) / 10 ^ 9 := by
    rw [hnow, Nat.sub_self]
    decide
  have hshort : ¬ bytes ≤ limiter.available := by omega
  unfold acquire
  rw [if_neg hrate, if_neg hearly]
  simp only [if_neg hshort]
  have hsame : { limiter with available := 0 } = limiter := by rw [← hempty]
  rw [hsame]
  exact ⟨_, rfl⟩

end BandwidthLimiter

namespace Throttle

/-! ## Nobody sleeps -/

def Immediate (s : Throttle) : ThrottleLabel → Prop
  | .acquire bytes => bytes ≤ s.limiter.budget s.now
  | .advance _ | .finish _ => True

instance : ∀ s label, Decidable (Immediate s label)
  | s, .acquire bytes => inferInstanceAs (Decidable (bytes ≤ s.limiter.budget s.now))
  | _, .advance _ | _, .finish _ => inferInstanceAs (Decidable True)

/-- All that has been handed out, and what is left, comes from the seconds that
have begun. -/
structure Paced (R start : Nat) (s : Throttle) : Prop where
  rate : s.limiter.maxBytesPerSec = R
  started : start ≤ s.limiter.lastReset
  reset : s.limiter.lastReset ≤ s.now
  handedOut : (s.pendingBytes + s.returnedBytes + s.limiter.available) * 10 ^ 9 ≤
    R * (s.limiter.lastReset - start + 10 ^ 9)
  throttled : Throttled R start s

theorem paced_initial {maxMbps start : Nat} (hfit : maxMbps * 1024 * 1024 < 2 ^ 64) :
    Paced (maxMbps * 1024 * 1024 / 8) start (initial maxMbps start) := by
  have hrate : (initial maxMbps start).limiter.maxBytesPerSec = maxMbps * 1024 * 1024 / 8 := by
    change maxMbps * 1024 * 1024 % 2 ^ 64 / 8 = _
    rw [Nat.mod_eq_of_lt hfit]
  refine ⟨hrate, Nat.le_refl start, Nat.le_refl start, ?_, fun T => ?_⟩
  · change (0 + 0 + (initial maxMbps start).limiter.maxBytesPerSec) * 10 ^ 9 ≤
      _ * (start - start + 10 ^ 9)
    rw [hrate, Nat.sub_self]
    omega
  · change 0 * 10 ^ 9 ≤ _
    omega

theorem returnedBy_le (s : Throttle) (time : Nat) : s.returnedBy time ≤ s.returnedBytes :=
  (List.filter_sublist.map ReturnedAcquire.bytes).sum_le_sum fun _ _ => Nat.zero_le _

theorem Paced.of_returned {R start : Nat} {s s' : Throttle} (h : Paced R start s)
    (hreturned : s'.returned = s.returned) : Throttled R start s' := by
  intro T
  rw [returnedBy, hreturned]
  exact h.throttled T

theorem paced_take {R start : Nat} {s s' : Throttle} (bytes : Nat) (h : Paced R start s)
    (hrate : s'.limiter.maxBytesPerSec = R)
    (htaken : s'.limiter.available + bytes = s.limiter.available ∧
        s'.limiter.lastReset = s.limiter.lastReset ∨
      s'.limiter.available + bytes = R ∧ s'.limiter.lastReset = s.now ∧
        s.limiter.lastReset + 10 ^ 9 ≤ s.now)
    (hnow : s'.now = s.now) (hpending : s'.pendingBytes = s.pendingBytes + bytes)
    (hreturned : s'.returned = s.returned) : Paced R start s' := by
  have hstarted := h.started
  have hreset := h.reset
  refine ⟨hrate, by omega, by omega, ?_, h.of_returned hreturned⟩
  rw [hpending, returnedBytes, hreturned, ← returnedBytes]
  rcases htaken with ⟨havailable, hlast⟩ | ⟨havailable, hlast, hdue⟩
  · have htotal : s.pendingBytes + bytes + s.returnedBytes + s'.limiter.available =
        s.pendingBytes + s.returnedBytes + s.limiter.available := by omega
    rw [htotal, hlast]
    exact h.handedOut
  · calc
      (s.pendingBytes + bytes + s.returnedBytes + s'.limiter.available) * 10 ^ 9
          ≤ (s.pendingBytes + s.returnedBytes + s.limiter.available) * 10 ^ 9 + R * 10 ^ 9 := by
        omega
      _ ≤ R * (s.limiter.lastReset - start + 10 ^ 9) + R * 10 ^ 9 :=
        Nat.add_le_add_right h.handedOut _
      _ = R * (s.limiter.lastReset - start + 10 ^ 9 + 10 ^ 9) := (Nat.mul_add _ _ _).symm
      _ ≤ R * (s'.limiter.lastReset - start + 10 ^ 9) := Nat.mul_le_mul_left R (by omega)

theorem paced_return {R start bytes : Nat} {s s' : Throttle} (h : Paced R start s)
    (hlimiter : s'.limiter = s.limiter) (hnow : s'.now = s.now)
    (hpending : s'.pendingBytes + bytes = s.pendingBytes)
    (hreturned : s'.returned = ⟨bytes, s.now⟩ :: s.returned) : Paced R start s' := by
  have hreset := h.reset
  have hbytes : s'.returnedBytes = bytes + s.returnedBytes := by
    rw [returnedBytes, hreturned, List.map_cons, List.sum_cons, returnedBytes]
  have hpart : s'.returnedBytes ≤
      s.pendingBytes + s.returnedBytes + s.limiter.available := by omega
  rw [← hlimiter] at hreset
  refine ⟨hlimiter ▸ h.rate, hlimiter ▸ h.started, hnow ▸ hreset, ?_, fun T => ?_⟩
  · have htotal : s'.pendingBytes + s'.returnedBytes = s.pendingBytes + s.returnedBytes := by omega
    rw [htotal, hlimiter]
    exact h.handedOut
  · rw [hlimiter] at hreset
    by_cases hpast : s.now ≤ start + T
    · calc
        s'.returnedBy (start + T) * 10 ^ 9
            ≤ s'.returnedBytes * 10 ^ 9 := Nat.mul_le_mul_right _ (returnedBy_le _ _)
        _ ≤ (s.pendingBytes + s.returnedBytes + s.limiter.available) * 10 ^ 9 :=
          Nat.mul_le_mul_right _ hpart
        _ ≤ R * (s.limiter.lastReset - start + 10 ^ 9) := h.handedOut
        _ ≤ R * (T + 10 ^ 9) := Nat.mul_le_mul_left R (by omega)
    · have hskip : s'.returnedBy (start + T) = s.returnedBy (start + T) := by
        rw [returnedBy, returnedBy, hreturned, List.filter_cons_of_neg (by simpa using hpast)]
      rw [hskip]
      exact h.throttled T

theorem paced_step {R start : Nat} {s s' : Throttle} {label : ThrottleLabel} (hR : R ≠ 0)
    (h : Paced R start s) (himmediate : s.Immediate label) (hstep : s.step label = some s') :
    Paced R start s' := by
  cases label with
  | advance ns =>
      cases hstep
      exact ⟨h.rate, h.started, Nat.le_trans h.reset (Nat.le_add_right _ _), h.handedOut,
        h.of_returned rfl⟩
  | acquire bytes =>
      obtain ⟨-, hrate, htaken⟩ := BandwidthLimiter.acquire_immediate (h.rate ▸ hR) himmediate
      rw [h.rate] at hrate htaken
      have hs' := Option.some.inj hstep
      rw [← hs']
      refine paced_take bytes h hrate htaken rfl ?_ rfl
      simp [pendingBytes]
  | finish call =>
      obtain ⟨pending, hpending, hready⟩ := Option.bind_eq_some_iff.mp hstep
      obtain ⟨hcall, rfl⟩ := List.getElem?_eq_some_iff.mp hpending
      split at hready
      · have hs' := Option.some.inj hready
        rw [← hs']
        have hperm := (List.getElem_cons_eraseIdx_perm hcall).map PendingAcquire.bytes
        have hsum := hperm.sum_eq
        rw [List.map_cons, List.sum_cons, Nat.add_comm] at hsum
        exact paced_return h rfl rfl hsum rfl
      · cases hready

/-! ## One sleeper -/

structure Saturated (R start second : Nat) (sleeper : PendingAcquire) (i : Nat) (s : Throttle) :
    Prop where
  rate : s.limiter.maxBytesPerSec = R
  empty : s.limiter.available = 0
  reset : s.limiter.lastReset = s.now
  now : s.now = start + i * second
  pending : s.pending = [sleeper]
  returnedBytes : s.returnedBytes = R * (i + 1)
  past : ∀ call ∈ s.returned, call.time ≤ s.now

def nextSecond (R second : Nat) (labels : List ThrottleLabel) : List ThrottleLabel :=
  .advance second :: .acquire R :: .finish 1 :: labels

theorem saturated_nextSecond {R start second i : Nat} {sleeper : PendingAcquire} {s : Throttle}
    (hR : R ≠ 0) (hsecond : 10 ^ 9 ≤ second) (h : Saturated R start second sleeper i s) :
    ∃ s', Saturated R start second sleeper (i + 1) s' ∧
      (∀ labels, EveryStep step Immediate s' labels →
        EveryStep step Immediate s (nextSecond R second labels)) ∧
      ∀ labels, runSteps step s (nextSecond R second labels) = runSteps step s' labels := by
  obtain ⟨hrate, hempty, hreset, hnow, hpending, hbytes, hpast⟩ := h
  have hdue : s.limiter.lastReset + 10 ^ 9 ≤ s.now + second := by omega
  have hacquire := BandwidthLimiter.acquire_refill (hrate ▸ hR) hdue
  rw [hrate] at hacquire
  let s₁ : Throttle := { s with now := s.now + second }
  let s₂ : Throttle := { s₁ with
    limiter := { s.limiter with available := 0, lastReset := s.now + second }
    pending := [sleeper, ⟨R, s.now + second⟩] }
  let s₃ : Throttle := { s₂ with
    pending := [sleeper]
    returned := ⟨R, s.now + second⟩ :: s.returned }
  have hs₁ : s.step (.advance second) = some s₁ := rfl
  have hs₂ : s₁.step (.acquire R) = some s₂ := by
    simp only [step, s₁, s₂, hacquire, hpending]
    simp [hrate]
  have hs₃ : s₂.step (.finish 1) = some s₃ := by
    simp [step, s₁, s₂, s₃]
  have hbudget : R ≤ s.limiter.budget (s.now + second) := by
    rw [BandwidthLimiter.budget, if_pos (by omega), hrate]
  refine ⟨s₃, ⟨hrate, rfl, rfl, ?_, rfl, ?_, ?_⟩, fun labels hlabels => ?_, fun labels => ?_⟩
  · change s.now + second = _
    rw [hnow, Nat.succ_mul, Nat.add_assoc]
  · change R + s.returnedBytes = _
    rw [hbytes, Nat.mul_succ R (i + 1), Nat.add_comm]
  · intro call hcall
    rcases List.mem_cons.mp hcall with rfl | hcall
    · exact Nat.le_refl _
    · exact Nat.le_trans (hpast call hcall) (Nat.le_add_right _ _)
  · refine ⟨trivial, ?_⟩
    rw [hs₁]
    refine ⟨hbudget, ?_⟩
    rw [hs₂]
    refine ⟨trivial, ?_⟩
    rw [hs₃]
    exact hlabels
  · simp only [nextSecond, runSteps, hs₁, hs₂, hs₃, Option.bind_some]

/-- A sleeper that finds everything taken until it wakes up comes on top. -/
theorem exists_not_throttled {R start second : Nat} {sleeper : PendingAcquire} {s : Throttle}
    (hR : R ≠ 0) (hsecond : second = 10 ^ 9) (hbytes : 0 < sleeper.bytes) {i n : Nat}
    (hn : sleeper.ready ≤ start + (i + n) * second) (h : Saturated R start second sleeper i s) :
    ∃ labels s', EveryStep step Immediate s labels ∧ runSteps step s labels = some s' ∧
      ¬ Throttled R start s' := by
  induction n generalizing i s with
  | zero =>
      let s' : Throttle := { s with
        pending := []
        returned := ⟨sleeper.bytes, s.now⟩ :: s.returned }
      have hstep : s.step (.finish 0) = some s' := by
        have hready : sleeper.ready ≤ s.now := by rwa [h.now]
        simp [step, h.pending, hready, s']
      refine ⟨[.finish 0], s', ?_, runSteps_cons.mpr ⟨s', hstep, rfl⟩, fun hthrottled => ?_⟩
      · refine ⟨trivial, ?_⟩
        rw [hstep]
        trivial
      · have hall : s'.returnedBy (start + i * second) = sleeper.bytes + R * (i + 1) := by
          have hpast : ∀ call ∈ s'.returned, decide (call.time ≤ start + i * second) = true := by
            intro call hcall
            rw [← h.now, decide_eq_true_iff]
            rcases List.mem_cons.mp hcall with rfl | hcall
            · exact Nat.le_refl _
            · exact h.past call hcall
          rw [returnedBy, List.filter_eq_self.mpr hpast, ← h.returnedBytes]
          rfl
        have hlimit := hthrottled (i * second)
        rw [hall, hsecond, ← Nat.succ_mul, ← Nat.mul_assoc] at hlimit
        have hbound := Nat.le_of_mul_le_mul_right hlimit (by decide)
        rw [Nat.succ_eq_add_one] at hbound
        omega
  | succ n ih =>
      obtain ⟨s', hs', hevery, hrun⟩ := saturated_nextSecond hR (Nat.le_of_eq hsecond.symm) h
      have hn' : sleeper.ready ≤ start + (i + 1 + n) * second := by
        rwa [Nat.add_assoc i 1 n, Nat.add_comm 1 n]
      obtain ⟨labels, s'', hlabels, hend, hnot⟩ := ih hn' hs'
      exact ⟨nextSecond R second labels, s'', hevery labels hlabels, (hrun labels).trans hend, hnot⟩

/-- The first call takes the whole first second. -/
theorem exists_saturated {R start : Nat} {s : Throttle} (second : Nat) (hR : R ≠ 0)
    (hs : s = { limiter := ⟨R, R, start⟩, now := start }) :
    ∃ front s₁, EveryStep step Immediate s front ∧ runSteps step s front = some s₁ ∧
      ∀ bytes, 0 < bytes → ∃ s₂ sleeper, s₁.step (.acquire bytes) = some s₂ ∧
        sleeper.bytes = bytes ∧ Saturated R start second sleeper 0 s₂ := by
  let s' : Throttle :=
    { limiter := ⟨R, 0, start⟩, now := start, pending := [⟨R, start⟩] }
  let s₁ : Throttle := { limiter := ⟨R, 0, start⟩, now := start, returned := [⟨R, start⟩] }
  have hs' : s.step (.acquire R) = some s' := by
    have hacquire := BandwidthLimiter.acquire_rest ⟨R, R, start⟩ hR rfl
    simp only [hs, step, hacquire, s']
    simp
  have hs₁ : s'.step (.finish 0) = some s₁ := by
    simp [step, s', s₁]
  have hbudget : R ≤ s.limiter.budget s.now := by
    rw [hs]
    simp [BandwidthLimiter.budget]
  refine ⟨[.acquire R, .finish 0], s₁, ⟨hbudget, ?_⟩,
    runSteps_cons.mpr ⟨s', hs', runSteps_cons.mpr ⟨s₁, hs₁, rfl⟩⟩, fun bytes hbytes => ?_⟩
  · rw [hs']
    refine ⟨trivial, ?_⟩
    rw [hs₁]
    trivial
  · obtain ⟨wait, hacquire⟩ :=
      BandwidthLimiter.acquire_sleep s₁.limiter hR rfl rfl hbytes
    let sleeper : PendingAcquire := ⟨bytes, start + wait * 10 ^ 6⟩
    let s₂ : Throttle := { s₁ with pending := [sleeper] }
    have hs₂ : s₁.step (.acquire bytes) = some s₂ := by
      simp only [step]
      rw [hacquire]
      rfl
    refine ⟨s₂, sleeper, hs₂, rfl, rfl, rfl, rfl, ?_, rfl, ?_, ?_⟩
    · simp [s₁, s₂]
    · simp [s₁, s₂, returnedBytes]
    · simp [s₁, s₂]

/-- If nobody sleeps, the limit holds; and a sleeper of any size is enough to
break it. -/
theorem throttled_of_immediate {maxMbps : Nat} (start : Nat) (hpos : 0 < maxMbps)
    (hfit : maxMbps * 1024 * 1024 < 2 ^ 64) :
    (∀ labels s, EveryStep step Immediate (initial maxMbps start) labels →
      runSteps step (initial maxMbps start) labels = some s →
        Throttled (maxMbps * 1024 * 1024 / 8) start s) ∧
    ∀ bytes, 0 < bytes → ∃ front back s₁ s₂ s₃,
      EveryStep step Immediate (initial maxMbps start) front ∧
      runSteps step (initial maxMbps start) front = some s₁ ∧
      s₁.step (.acquire bytes) = some s₂ ∧
      EveryStep step Immediate s₂ back ∧ runSteps step s₂ back = some s₃ ∧
      ¬ Throttled (maxMbps * 1024 * 1024 / 8) start s₃ := by
  have hR : maxMbps * 1024 * 1024 / 8 ≠ 0 := by omega
  refine ⟨fun labels s hlabels hrun => ?_, fun bytes hbytes => ?_⟩
  · exact (runSteps_invariant (fun s label s' h hlabel hstep => paced_step hR h hlabel hstep)
      (paced_initial hfit) hlabels hrun).throttled
  · have hnew : initial maxMbps start =
        { limiter := ⟨maxMbps * 1024 * 1024 / 8, maxMbps * 1024 * 1024 / 8, start⟩
          now := start } := by
      rw [initial, BandwidthLimiter.new, Nat.mod_eq_of_lt hfit]
    obtain ⟨front, s₁, hfront, hrun, hsleep⟩ := exists_saturated (10 ^ 9) hR hnew
    obtain ⟨s₂, sleeper, hs₂, rfl, hsaturated⟩ := hsleep bytes hbytes
    have hn : sleeper.ready ≤ start + (0 + sleeper.ready) * 10 ^ 9 := by omega
    obtain ⟨back, s₃, hback, hend, hnot⟩ :=
      exists_not_throttled hR rfl hbytes hn hsaturated
    exact ⟨front, back, s₁, s₂, s₃, hfront, hrun, hs₂, hback, hend, hnot⟩

/-- Three calls at 8 Mbit/s: two share the first second, the third takes all of
the next one. -/
def sampleCalls : List ThrottleLabel :=
  [.acquire 262144, .acquire 786432, .finish 1, .advance (10 ^ 9), .acquire 1048576, .finish 0,
    .finish 0]

theorem throttled_sampleCalls :
    EveryStep step Immediate (initial 8 0) sampleCalls ∧
      ∃ s, runSteps step (initial 8 0) sampleCalls = some s ∧ s.returned.length = 3 ∧
        Throttled (8 * 1024 * 1024 / 8) 0 s := by
  have hevery : EveryStep step Immediate (initial 8 0) sampleCalls := by decide +kernel
  refine ⟨hevery, ?_⟩
  have hreturns : ((runSteps step (initial 8 0) sampleCalls).any fun s =>
      decide (s.returned.length = 3)) = true := by
    decide +kernel
  obtain ⟨s, hrun, hlength⟩ := (Option.any_eq_true _ _).mp hreturns
  exact ⟨s, hrun, of_decide_eq_true hlength,
    (throttled_of_immediate 0 (by decide) (by decide)).1 sampleCalls s hevery hrun⟩

/-- At 8 Mbit/s one call takes the whole second, and the next one, for a single
byte, is told to sleep for zero milliseconds. -/
def oneByteMore : List ThrottleLabel := [.acquire 1048576, .finish 0, .acquire 1, .finish 0]

theorem not_throttled_oneByteMore :
    ∃ s, runSteps step (initial 8 0) oneByteMore = some s ∧
      ¬ Throttled (8 * 1024 * 1024 / 8) 0 s := by
  have hexceeds : ((runSteps step (initial 8 0) oneByteMore).any fun s =>
      decide (¬ s.returnedBy (0 + 0) * 10 ^ 9 ≤ 8 * 1024 * 1024 / 8 * (0 + 10 ^ 9))) = true := by
    decide +kernel
  obtain ⟨s, hrun, hmore⟩ := (Option.any_eq_true _ _).mp hexceeds
  exact ⟨s, hrun, fun h => of_decide_eq_true hmore (h 0)⟩

end Throttle

/-! ## How long a call sleeps -/

namespace BandwidthLimiter

/-- `wait` milliseconds are what a rate of `R` bytes per second needs for `d`
bytes, rounded down or up. -/
def SuppliesIn (R d wait : Nat) : Prop := 1000 * d / R ≤ wait ∧ wait ≤ (1000 * d + R - 1) / R

instance (R d wait : Nat) : Decidable (SuppliesIn R d wait) := inferInstanceAs (Decidable (_ ∧ _))

theorem acquire_short {limiter : BandwidthLimiter} {now bytes : Nat}
    (hrate : 0 < limiter.maxBytesPerSec) (hshort : limiter.budget now < bytes) :
    (limiter.acquire now bytes).1 =
      some ((bytes - limiter.budget now) * 1000 % 2 ^ 64 /
        max (limiter.maxBytesPerSec / 1024) 1) := by
  have hdue : 1 ≤ (now - limiter.lastReset) / 10 ^ 9 ↔ 10 ^ 9 ≤ now - limiter.lastReset := by
    rw [Nat.le_div_iff_mul_le (by decide), Nat.one_mul]
  unfold budget at hshort ⊢
  unfold acquire
  rw [if_neg (by omega)]
  by_cases hrefill : 10 ^ 9 ≤ now - limiter.lastReset
  · rw [if_pos hrefill] at hshort ⊢
    rw [if_pos (hdue.mpr hrefill), if_neg (by simpa using hshort)]
  · rw [if_neg hrefill] at hshort ⊢
    rw [if_neg (mt hdue.mp hrefill), if_neg (by omega)]

/-- The scaled rate is far too small, so the quotient is too large as soon as it
is more than one. -/
theorem suppliesIn_scaled_iff {R d : Nat} (hR : 0 < R) (hd : 0 < d) :
    SuppliesIn R d (1000 * d / max (R / 1024) 1) ↔ R = 1 ∨ 1000 * d < 2 * max (R / 1024) 1 := by
  have hpos : 0 < max (R / 1024) 1 := by omega
  have hle : max (R / 1024) 1 ≤ R := by omega
  have hceil : (1000 * d + R - 1) / R = (1000 * d - 1) / R + 1 := by
    rw [show 1000 * d + R - 1 = 1000 * d - 1 + R by omega, Nat.add_div_right _ hR]
  rw [SuppliesIn, hceil]
  constructor
  · rintro ⟨-, hupper⟩
    by_contra hmany
    rw [not_or, Nat.not_lt] at hmany
    have htwo : 2 ≤ 1000 * d / max (R / 1024) 1 := (Nat.le_div_iff_mul_le hpos).mpr hmany.2
    by_cases hlow : R < 2048
    · -- The scaled rate is one byte per second here.
      have hone : max (R / 1024) 1 = 1 := by omega
      have hhalf : (1000 * d - 1) / R ≤ (1000 * d - 1) / 2 :=
        Nat.div_le_div_left (by omega) (by decide)
      rw [hone, Nat.div_one] at hupper
      omega
    · have hscale : max (R / 1024) 1 * 1024 ≤ R := by omega
      have hsmall : (1000 * d - 1) / R ≤ 1000 * d / max (R / 1024) 1 / 1024 := by
        rw [Nat.div_div_eq_div_mul]
        exact (Nat.div_le_div_left hscale (by omega)).trans (Nat.div_le_div_right (by omega))
      omega
  · rintro (rfl | hfew)
    · have hdiv : max (1 / 1024) 1 = 1 := by decide
      rw [hdiv, Nat.div_one, Nat.div_one]
      omega
    · have hone : 1000 * d / max (R / 1024) 1 < 2 := (Nat.div_lt_iff_lt_mul hpos).mpr hfew
      have hceilPos : 1 ≤ (1000 * d - 1) / R + 1 := Nat.le_add_left 1 _
      exact ⟨Nat.div_le_div_left hle hpos, by omega⟩

/-- The time to sleep fits the rate only for a rate of one byte per second or
while it is at most one millisecond. -/
theorem acquire_suppliesIn_iff {limiter : BandwidthLimiter} {now bytes : Nat}
    (hrate : 0 < limiter.maxBytesPerSec) (hshort : limiter.budget now < bytes)
    (hfit : 1000 * (bytes - limiter.budget now) < 2 ^ 64) :
    (∃ wait, (limiter.acquire now bytes).1 = some wait ∧
        SuppliesIn limiter.maxBytesPerSec (bytes - limiter.budget now) wait) ↔
      limiter.maxBytesPerSec = 1 ∨
        1000 * (bytes - limiter.budget now) < 2 * max (limiter.maxBytesPerSec / 1024) 1 := by
  have hwait : (limiter.acquire now bytes).1 =
      some (1000 * (bytes - limiter.budget now) / max (limiter.maxBytesPerSec / 1024) 1) := by
    rw [acquire_short hrate hshort, Nat.mul_comm _ 1000, Nat.mod_eq_of_lt hfit]
  rw [hwait, ← suppliesIn_scaled_iff hrate (by omega)]
  constructor
  · rintro ⟨wait, hsome, hsupplies⟩
    cases hsome
    exact hsupplies
  · intro hsupplies
    exact ⟨_, rfl, hsupplies⟩

/-- One byte more than there is, at 8 Mbit/s. -/
theorem acquire_suppliesIn_oneByte :
    ∃ wait, ((new 8 0).acquire 0 1048577).1 = some wait ∧
      SuppliesIn (new 8 0).maxBytesPerSec (1048577 - (new 8 0).budget 0) wait :=
  (acquire_suppliesIn_iff (by decide) (by decide) (by decide)).mpr (.inr (by decide))

/-- A second's worth more than there is, at 8 Mbit/s: the call is told to sleep
for 1024 seconds. -/
theorem not_suppliesIn_twoSeconds :
    (new 8 0).budget 0 < 2097152 ∧ ((new 8 0).acquire 0 2097152).1 = some 1024000 ∧
      ¬ SuppliesIn (new 8 0).maxBytesPerSec (2097152 - (new 8 0).budget 0) 1024000 := by
  decide

end BandwidthLimiter

end ElioP2P.P2P
