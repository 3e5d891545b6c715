import ElioP2P.Control.HeartbeatLoop
import ElioP2P.Library.Steps

/-!
# There is at most one heartbeat loop

`heartbeat_running` is set by the one caller that goes on to start the thread and
cleared by the one that has joined it.  So the thread object is free when it is
assigned, the provider is not replaced under a loop that may call it, and once a
call of `stop_heartbeat_loop` has returned no heartbeat goes out before a loop
is started again.
-/

namespace ElioP2P.Control

open ElioP2P.Library

def CallPhase.Holds : CallPhase → Prop
  | .calls _ | .disconnecting | .returned => False
  | _ => True

/-- How many steps the loop thread has before it at most, once the stop flag is
up and if its calls do not go on. -/
def LoopPhase.rank : LoopPhase → Nat
  | .ended => 0
  | .testing => 1
  | .sleeping => 2
  | .requesting _ => 3
  | .sending _ => 4
  | .providing => 5
  | .polling => 6

/-- And a caller, as long as it does not get the mutex. -/
def CallPhase.rank : CallPhase → Nat
  | .calls .disconnect => 5
  | .disconnecting => 4
  | .calls .stop => 3
  | .joining => 2
  | .lowering | .calls .connect => 1
  | _ => 0

namespace HeartbeatLoop

variable {s s' t : HeartbeatLoop} {caller : Nat} {phase : CallPhase} {event : Event}
  {events : List Event}

def Settled (s : HeartbeatLoop) : Prop := s.heartbeatRunning = s.heartbeatThread.isSome

def Agrees (s : HeartbeatLoop) : CallPhase → Prop
  | .exchanging _ | .loading => s.Settled
  | .assigning _ | .clearing | .spawning | .lowering =>
      s.heartbeatRunning = true ∧ s.heartbeatThread = none
  | .raising => s.heartbeatRunning = true ∧ s.heartbeatThread.isSome = true
  | .joining =>
      s.heartbeatRunning = true ∧ s.heartbeatThread.isSome = true ∧ s.stopHeartbeat = true
  | .calls _ | .disconnecting | .returned => True

def Current (s : HeartbeatLoop) : Prop :=
  ∀ provider, s.heartbeatThread = some (.sending provider) ∨
    s.heartbeatThread = some (.requesting provider) → s.statusProvider = some provider

structure Orderly (s : HeartbeatLoop) : Prop where
  alive : s.terminated = false
  free : s.holder = none → s.Settled
  held : ∀ caller, s.holder = some caller →
    ∃ phase, s.callers[caller]? = some phase ∧ phase.Holds ∧ s.Agrees phase
  exclusive : ∀ caller phase, s.callers[caller]? = some phase → phase.Holds →
    s.holder = some caller
  current : s.Current

theorem orderly_new : Orderly {} where
  alive := rfl
  free _ := rfl
  held _ h := nomatch h
  exclusive _ _ h := nomatch h
  current _ h := by rcases h with h | h <;> cases h

/-! ## One step -/

theorem Orderly.agrees (h : s.Orderly) (hphase : s.callers[caller]? = some phase)
    (hholds : phase.Holds) : s.Agrees phase := by
  obtain ⟨other, hother, -, hagrees⟩ := h.held caller (h.exclusive caller phase hphase hholds)
  rw [hphase] at hother
  cases hother
  exact hagrees

theorem Orderly.keep (h : s.Orderly) (hphase : s.callers[caller]? = some phase)
    (hholds : phase.Holds) {next : CallPhase} (halive : t.terminated = s.terminated)
    (hholder : t.holder = s.holder) (hcallers : t.callers = s.callers) (hnext : next.Holds)
    (hagrees : t.Agrees next) (hcurrent : t.Current) : (t.enter caller next).Orderly := by
  have hlt : caller < t.callers.length := hcallers ▸ (List.getElem?_eq_some_iff.mp hphase).1
  have hself : t.holder = some caller := hholder.trans (h.exclusive caller phase hphase hholds)
  refine ⟨halive.trans h.alive, fun hnone => ?_, fun other hother => ?_, fun other p hp hp' => ?_,
    hcurrent⟩
  · cases hself.symm.trans hnone
  · cases hself.symm.trans hother
    exact ⟨next, List.getElem?_set_self hlt, hnext, hagrees⟩
  · obtain ⟨rfl, rfl⟩ | ⟨-, hold⟩ := getElem?_set_cases hp
    · exact hself
    · rw [hcallers] at hold
      exact hholder.trans (h.exclusive other p hold hp')

theorem Orderly.release (h : s.Orderly) (hphase : s.callers[caller]? = some phase)
    (hholds : phase.Holds) (halive : t.terminated = s.terminated) (hcallers : t.callers = s.callers)
    (hsettled : t.Settled) (hcurrent : t.Current) : (t.unlock caller).Orderly := by
  have hself := h.exclusive caller phase hphase hholds
  refine ⟨halive.trans h.alive, fun _ => hsettled, fun other hother => ?_,
    fun other p hp hp' => ?_, hcurrent⟩
  · cases hother
  · have hset : (s.callers.set caller .returned)[other]? = some p := hcallers ▸ hp
    obtain ⟨-, rfl⟩ | ⟨hne, hold⟩ := getElem?_set_cases hset
    · exact hp'.elim
    · cases hself.symm.trans (h.exclusive other p hold hp')
      exact absurd rfl hne

theorem Orderly.lock (h : s.Orderly) (hphase : s.callers[caller]? = some phase)
    (next : CallPhase) (hnext : next.Holds) (hagrees : s.Settled → s.Agrees next)
    (hlock : s.lock caller next = some s') : s'.Orderly := by
  unfold HeartbeatLoop.lock at hlock
  split at hlock
  · cases hlock
  · rename_i hfree
    cases hlock
    have hlt : caller < s.callers.length := (List.getElem?_eq_some_iff.mp hphase).1
    refine ⟨h.alive, fun hnone => ?_, fun other hother => ?_, fun other p hp hp' => ?_, h.current⟩
    · cases hnone
    · cases hother
      exact ⟨next, List.getElem?_set_self hlt, hnext, hagrees (h.free hfree)⟩
    · obtain ⟨rfl, rfl⟩ | ⟨-, hold⟩ := getElem?_set_cases hp
      · rfl
      · cases hfree.symm.trans (h.exclusive other p hold hp')

theorem Orderly.outside (h : s.Orderly) (hphase : s.callers[caller]? = some phase)
    (hholds : ¬ phase.Holds) (next : CallPhase) (hnext : ¬ next.Holds) (connected : Bool) :
    ({ s with connected := connected }.enter caller next).Orderly := by
  refine ⟨h.alive, h.free, fun other hother => ?_, fun other p hp hp' => ?_, h.current⟩
  · obtain ⟨p, hp, hp', hagrees⟩ := h.held other hother
    refine ⟨p, ?_, hp', hagrees⟩
    have hne : caller ≠ other := by
      rintro rfl
      rw [hphase] at hp
      cases hp
      exact hholds hp'
    exact (List.getElem?_set_ne hne).trans hp
  · obtain ⟨-, rfl⟩ | ⟨-, hold⟩ := getElem?_set_cases hp
    · exact absurd hp' hnext
    · exact h.exclusive other p hold hp'

theorem Orderly.goOn {created : Bool} (h : s.Orderly) (hphase : s.callers[caller]? = some phase)
    (hstep : s.goOn caller created phase = some s') : s'.Orderly := by
  cases phase with
  | calls call =>
      cases call with
      | connect =>
          cases hstep
          exact h.outside hphase not_false .returned not_false true
      | disconnect =>
          cases hstep
          apply h.outside hphase not_false _ ?_ s.connected
          split <;> exact not_false
      | start provider => exact h.lock hphase (.exchanging provider) trivial id hstep
      | stop => exact h.lock hphase .loading trivial id hstep
  | disconnecting =>
      cases hstep
      exact h.outside hphase not_false (.calls .stop) not_false false
  | exchanging provider =>
      have hsettled : s.Settled := h.agrees hphase trivial
      simp only [HeartbeatLoop.goOn] at hstep
      split at hstep
      · cases hstep
        exact h.release hphase trivial rfl rfl hsettled h.current
      · rename_i hrunning
        cases hstep
        refine h.keep hphase trivial rfl rfl rfl trivial ⟨rfl, ?_⟩ h.current
        rw [Settled, Bool.eq_false_iff.mpr hrunning] at hsettled
        exact Option.isNone_iff_eq_none.mp (by simpa using hsettled.symm)
  | assigning provider =>
      have hagrees := h.agrees hphase trivial
      cases hstep
      refine h.keep hphase trivial rfl rfl rfl trivial hagrees fun other hother => ?_
      simp [hagrees.2] at hother
  | clearing =>
      have hagrees := h.agrees hphase trivial
      cases hstep
      exact h.keep hphase trivial rfl rfl rfl trivial hagrees h.current
  | spawning =>
      obtain ⟨hrunning, hthread⟩ := h.agrees hphase trivial
      simp only [HeartbeatLoop.goOn, hthread, Option.isSome_none, Bool.false_eq_true,
        if_false] at hstep
      split at hstep
      · cases hstep
        refine h.release hphase trivial rfl rfl hrunning fun other hother => ?_
        rcases hother with hother | hother <;> cases hother
      · cases hstep
        refine h.release hphase trivial rfl rfl ?_ fun other hother => ?_
        · simp [Settled]
        · simp at hother
  | loading =>
      have hsettled : s.Settled := h.agrees hphase trivial
      simp only [HeartbeatLoop.goOn, Option.some.injEq] at hstep
      split at hstep
      · rename_i hrunning
        cases hstep
        exact h.keep hphase trivial rfl rfl rfl trivial ⟨hrunning, hsettled ▸ hrunning⟩ h.current
      · cases hstep
        exact h.release hphase trivial rfl rfl hsettled h.current
  | raising =>
      obtain ⟨hrunning, hthread⟩ := h.agrees hphase trivial
      cases hstep
      exact h.keep hphase trivial rfl rfl rfl trivial ⟨hrunning, hthread, rfl⟩ h.current
  | joining =>
      obtain ⟨hrunning, hthread, -⟩ := h.agrees hphase trivial
      simp only [HeartbeatLoop.goOn] at hstep
      split at hstep
      · rename_i hnone
        simp [hnone] at hthread
      · cases hstep
        refine h.keep hphase trivial rfl rfl rfl trivial ⟨hrunning, rfl⟩ fun other hother => ?_
        rcases hother with hother | hother <;> cases hother
      · cases hstep
  | lowering =>
      obtain ⟨-, hthread⟩ := h.agrees hphase trivial
      cases hstep
      refine h.release hphase trivial rfl rfl ?_ h.current
      simp [Settled, hthread]
  | returned => cases hstep

theorem Orderly.loopTo {loop next : LoopPhase} (h : s.Orderly)
    (hthread : s.heartbeatThread = some loop) (sent : List Nat)
    (hcurrent : ∀ provider, next = .sending provider ∨ next = .requesting provider →
      s.statusProvider = some provider) :
    ({ s with sent := sent }.loopTo next).Orderly := by
  have hagrees : ∀ phase, s.Agrees phase → ({ s with sent := sent }.loopTo next).Agrees phase := by
    intro phase hphase
    cases phase <;> simp_all [Agrees, Settled, HeartbeatLoop.loopTo]
  refine ⟨h.alive, fun hfree => hagrees .loading (h.free hfree), fun caller hholder => ?_,
    h.exclusive, fun provider hprovider => hcurrent provider ?_⟩
  · obtain ⟨phase, hphase, hholds, hagrees'⟩ := h.held caller hholder
    exact ⟨phase, hphase, hholds, hagrees phase hagrees'⟩
  · simpa [HeartbeatLoop.loopTo] using hprovider

theorem Orderly.escape (h : s.Orderly) : ({ s with escaped := true } : HeartbeatLoop).Orderly :=
  ⟨h.alive, h.free, h.held, h.exclusive, h.current⟩

theorem Orderly.tick {outcome : Outcome} {loop : LoopPhase} (h : s.Orderly)
    (hthread : s.heartbeatThread = some loop) (hstep : s.tick outcome loop = some s') :
    s'.Orderly := by
  cases loop with
  | testing =>
      cases hstep
      refine h.loopTo hthread s.sent fun provider hprovider => ?_
      split at hprovider <;> simp at hprovider
  | polling =>
      cases hstep
      refine h.loopTo hthread s.sent fun provider hprovider => ?_
      split at hprovider <;> simp at hprovider
  | providing =>
      have hsleeps : (s.loopTo .sleeping).Orderly :=
        h.loopTo hthread s.sent fun provider hprovider => by simp at hprovider
      simp only [HeartbeatLoop.tick] at hstep
      split at hstep
      · cases hstep
        exact hsleeps
      · cases hstep
        exact hsleeps
      · cases hstep
        exact h
      · rename_i current hcurrent
        cases hstep
        refine h.loopTo hthread s.sent fun provider hprovider => ?_
        rw [hcurrent]
        simpa [eq_comm] using hprovider
      · cases hstep
        exact h.escape
  | sending current =>
      simp only [HeartbeatLoop.tick] at hstep
      split at hstep
      · cases hstep
        refine h.loopTo hthread _ fun provider hprovider => ?_
        have hsame : current = provider := by simpa using hprovider
        exact h.current provider (Or.inl (hsame ▸ hthread))
      · cases hstep
        exact h.loopTo hthread s.sent fun provider hprovider => by simp at hprovider
  | requesting current =>
      have hsleeps : (s.loopTo .sleeping).Orderly :=
        h.loopTo hthread s.sent fun provider hprovider => by simp at hprovider
      cases outcome with
      | lasts =>
          cases hstep
          exact h
      | returns | throws =>
          cases hstep
          exact hsleeps
      | escapes =>
          cases hstep
          exact h.escape
  | sleeping =>
      cases hstep
      exact h.loopTo hthread s.sent fun provider hprovider => by simp at hprovider
  | ended => cases hstep

theorem Orderly.call (h : s.Orderly) (call : LoopCall) :
    ({ s with callers := s.callers ++ [.calls call] } : HeartbeatLoop).Orderly := by
  refine ⟨h.alive, h.free, fun caller hholder => ?_,
    fun caller phase hphase hholds => ?_, h.current⟩
  · obtain ⟨phase, hphase, hholds, hagrees⟩ := h.held caller hholder
    have hlt := (List.getElem?_eq_some_iff.mp hphase).1
    exact ⟨phase, (List.getElem?_append_left hlt).trans hphase, hholds, hagrees⟩
  · rcases Nat.lt_or_ge caller s.callers.length with hlt | hge
    · exact h.exclusive caller phase ((List.getElem?_append_left hlt).symm.trans hphase) hholds
    · rw [List.getElem?_append_right hge] at hphase
      have hmem := List.mem_of_getElem? hphase
      rw [List.mem_singleton] at hmem
      subst hmem
      exact hholds.elim

theorem step_cases (hstep : step s event = some s') :
    (∃ call, event = .call call ∧ s' = { s with callers := s.callers ++ [.calls call] }) ∨
      (∃ caller created phase, event = .go caller created ∧ s.callers[caller]? = some phase ∧
        s.goOn caller created phase = some s') ∨
      ∃ outcome loop, event = .tick outcome ∧ s.heartbeatThread = some loop ∧
        s.tick outcome loop = some s' := by
  cases event with
  | call call =>
      simp only [step] at hstep
      split at hstep
      · cases hstep
      · cases hstep
        exact Or.inl ⟨call, rfl, rfl⟩
  | go caller created =>
      obtain ⟨phase, hphase, hgo⟩ := Option.bind_eq_some_iff.mp hstep
      split at hgo
      · cases hgo
      · exact Or.inr (Or.inl ⟨caller, created, phase, rfl, hphase, hgo⟩)
  | tick outcome =>
      obtain ⟨loop, hthread, htick⟩ := Option.bind_eq_some_iff.mp hstep
      split at htick
      · cases htick
      · exact Or.inr (Or.inr ⟨outcome, loop, rfl, hthread, htick⟩)

theorem Orderly.step (h : s.Orderly) (hstep : step s event = some s') : s'.Orderly := by
  obtain ⟨call, -, rfl⟩ | ⟨caller, created, phase, -, hphase, hgo⟩ |
    ⟨outcome, loop, -, hthread, htick⟩ := step_cases hstep
  · exact h.call call
  · exact h.goOn hphase hgo
  · exact h.tick hthread htick

theorem orderly_of_run (hrun : runSteps HeartbeatLoop.step {} events = some s) : s.Orderly :=
  runSteps_invariant (P := fun _ _ => True) (fun _ _ _ h _ hstep => h.step hstep) orderly_new
    (EveryStep.of_forall fun _ _ => trivial) hrun

/-! ## Safety -/

theorem Orderly.running (h : s.Orderly) (hthread : s.heartbeatThread.isSome = true) :
    s.heartbeatRunning = true := by
  cases hholder : s.holder with
  | none => exact (h.free hholder).trans hthread
  | some caller =>
      obtain ⟨phase, -, hholds, hagrees⟩ := h.held caller hholder
      cases phase with
      | exchanging provider | loading => exact Eq.trans hagrees hthread
      | assigning provider | clearing | spawning | raising | joining | lowering => exact hagrees.1
      | calls call | disconnecting | returned => exact hholds.elim

theorem goOn_frame {created : Bool} (hstep : s.goOn caller created phase = some s') :
    s'.sent = s.sent ∧
      (s'.statusProvider = s.statusProvider ∨ ∃ provider, phase = .assigning provider) ∧
      (s'.heartbeatThread = s.heartbeatThread ∨ s'.heartbeatThread = none ∨
        created = true ∧ phase = .spawning) := by
  cases phase with
  | calls call =>
      cases call with
      | connect | disconnect =>
          cases hstep
          exact ⟨rfl, Or.inl rfl, Or.inl rfl⟩
      | start provider | stop =>
          simp only [HeartbeatLoop.goOn, HeartbeatLoop.lock] at hstep
          split at hstep <;> cases hstep
          exact ⟨rfl, Or.inl rfl, Or.inl rfl⟩
  | exchanging provider | loading =>
      simp only [HeartbeatLoop.goOn] at hstep
      split at hstep <;> cases hstep <;> exact ⟨rfl, Or.inl rfl, Or.inl rfl⟩
  | assigning provider =>
      cases hstep
      exact ⟨rfl, Or.inr ⟨provider, rfl⟩, Or.inl rfl⟩
  | spawning =>
      cases created with
      | true =>
          simp only [HeartbeatLoop.goOn, if_true] at hstep
          split at hstep <;> cases hstep <;>
            exact ⟨rfl, Or.inl rfl, Or.inr (Or.inr ⟨rfl, rfl⟩)⟩
      | false =>
          cases hstep
          exact ⟨rfl, Or.inl rfl, Or.inl rfl⟩
  | joining =>
      simp only [HeartbeatLoop.goOn] at hstep
      split at hstep <;> cases hstep
      · exact ⟨rfl, Or.inl rfl, Or.inl rfl⟩
      · exact ⟨rfl, Or.inl rfl, Or.inr (Or.inl rfl)⟩
  | disconnecting | clearing | raising | lowering =>
      cases hstep
      exact ⟨rfl, Or.inl rfl, Or.inl rfl⟩
  | returned => cases hstep

theorem tick_cases {outcome : Outcome} {loop : LoopPhase} (hstep : s.tick outcome loop = some s') :
    (∃ provider, loop = .sending provider ∧
        s' = { s with sent := s.sent ++ [provider] }.loopTo (.requesting provider)) ∨
      s'.sent = s.sent ∧ s'.statusProvider = s.statusProvider := by
  cases loop with
  | sending provider =>
      simp only [HeartbeatLoop.tick] at hstep
      split at hstep
      · cases hstep
        exact Or.inl ⟨provider, rfl, rfl⟩
      · cases hstep
        exact Or.inr ⟨rfl, rfl⟩
  | testing | polling | sleeping =>
      cases hstep
      exact Or.inr ⟨rfl, rfl⟩
  | providing =>
      simp only [HeartbeatLoop.tick] at hstep
      split at hstep <;> cases hstep <;> exact Or.inr ⟨rfl, rfl⟩
  | requesting provider =>
      cases outcome <;> cases hstep <;> exact Or.inr ⟨rfl, rfl⟩
  | ended => cases hstep

/-- Whoever calls, and whenever: the thread object is never assigned while a loop
has it, a loop runs only under the flag, nobody replaces the provider while there
is a loop, and each heartbeat comes from the provider in place. -/
theorem safe_of_run (hrun : runSteps HeartbeatLoop.step {} events = some s) :
    s.terminated = false ∧ (s.heartbeatThread.isSome = true → s.heartbeatRunning = true) ∧
      ∀ event s', s.step event = some s' →
        (s'.statusProvider ≠ s.statusProvider → s.heartbeatThread = none) ∧
          (s'.sent ≠ s.sent → ∃ provider, s.statusProvider = some provider ∧
            s'.sent = s.sent ++ [provider]) := by
  have h := orderly_of_run hrun
  refine ⟨h.alive, h.running, fun event s' hstep => ?_⟩
  obtain ⟨call, -, rfl⟩ | ⟨caller, created, phase, -, hphase, hgo⟩ |
    ⟨outcome, loop, -, hthread, htick⟩ := step_cases hstep
  · exact ⟨fun hchanged => absurd rfl hchanged, fun hchanged => absurd rfl hchanged⟩
  · obtain ⟨hsent, hprovider, -⟩ := goOn_frame hgo
    refine ⟨fun hchanged => ?_, fun hchanged => absurd hsent hchanged⟩
    obtain ⟨provider, rfl⟩ := hprovider.resolve_left hchanged
    exact (h.agrees hphase trivial).2
  · obtain ⟨provider, rfl, rfl⟩ | ⟨hsent, hprovider⟩ := tick_cases htick
    · exact ⟨fun hchanged => absurd rfl hchanged,
        fun _ => ⟨provider, h.current provider (Or.inl hthread), rfl⟩⟩
    · exact ⟨fun hchanged => absurd hprovider hchanged, fun hchanged => absurd hsent hchanged⟩

/-- A client connects and starts a loop, which is in the request of a heartbeat, and a
call of `stop_heartbeat_loop` waits for it. -/
def stopping : List Event :=
  [.call .connect, .go 0 true, .call (.start (some 7)), .go 1 true, .go 1 true, .go 1 true,
    .go 1 true, .go 1 true, .tick .returns, .tick .returns, .tick .returns, .tick .returns,
    .call .stop, .go 2 true, .go 2 true, .go 2 true]

theorem safe_of_run_stopping :
    ∃ s, runSteps HeartbeatLoop.step {} stopping = some s ∧
      s.terminated = false ∧ (s.heartbeatThread.isSome = true → s.heartbeatRunning = true) ∧
      ∀ event s', s.step event = some s' →
        (s'.statusProvider ≠ s.statusProvider → s.heartbeatThread = none) ∧
          (s'.sent ≠ s.sent → ∃ provider, s.statusProvider = some provider ∧
            s'.sent = s.sent ++ [provider]) :=
  ⟨_, rfl, @safe_of_run _ stopping rfl⟩

/-! ## Silence -/

def StartsNone (s : HeartbeatLoop) : Event → Prop
  | .go caller true => s.callers[caller]? ≠ some .spawning
  | _ => True

instance (s : HeartbeatLoop) : ∀ event, Decidable (StartsNone s event)
  | .go _ true => inferInstanceAs (Decidable (_ ≠ _))
  | .go _ false | .call _ | .tick _ => inferInstanceAs (Decidable True)

theorem silent_step (hthread : s.heartbeatThread = none) (hnone : StartsNone s event)
    (hstep : s.step event = some s') : s'.heartbeatThread = none ∧ s'.sent = s.sent := by
  obtain ⟨call, -, rfl⟩ | ⟨caller, created, phase, rfl, hphase, hgo⟩ |
    ⟨outcome, loop, -, hloop, -⟩ := step_cases hstep
  · exact ⟨hthread, rfl⟩
  · obtain ⟨hsent, -, hsame | hgone | ⟨rfl, rfl⟩⟩ := goOn_frame hgo
    · exact ⟨hsame.trans hthread, hsent⟩
    · exact ⟨hgone, hsent⟩
    · exact absurd hphase hnone
  · cases hthread.symm.trans hloop

def StopReturns (s : HeartbeatLoop) (caller : Nat) (s' : HeartbeatLoop) : Prop :=
  (s.callers[caller]? = some .loading ∨ s.callers[caller]? = some .lowering) ∧
    s.step (.go caller true) = some s' ∧ s'.callers[caller]? = some .returned

instance (s : HeartbeatLoop) (caller : Nat) (s' : HeartbeatLoop) :
    Decidable (s.StopReturns caller s') :=
  inferInstanceAs (Decidable (_ ∧ _))

theorem heartbeatThread_of_stopReturns (h : s.Orderly) (hstop : s.StopReturns caller s') :
    s'.heartbeatThread = none := by
  obtain ⟨hphase, hstep, hreturned⟩ := hstop
  obtain ⟨call, hevent, -⟩ | ⟨other, created, phase, hevent, hother, hgo⟩ | ⟨_, _, hevent, -⟩ :=
    step_cases hstep
  · cases hevent
  · cases hevent
    rcases hphase with hphase | hphase
    · rw [hphase] at hother
      cases hother
      have hlt := (List.getElem?_eq_some_iff.mp hphase).1
      have hsettled : s.Settled := h.agrees hphase trivial
      simp only [HeartbeatLoop.goOn, Option.some.injEq] at hgo
      split at hgo
      · cases hgo
        rw [enter, List.getElem?_set_self hlt] at hreturned
        cases hreturned
      · rename_i hrunning
        cases hgo
        rw [Settled, Bool.eq_false_iff.mpr hrunning] at hsettled
        have hgone : s.heartbeatThread = none :=
          Option.isNone_iff_eq_none.mp (by simpa using hsettled.symm)
        exact hgone
    · rw [hphase] at hother
      cases hother
      have hagrees := h.agrees hphase trivial
      cases hgo
      exact hagrees.2
  · cases hevent

/-- Once a call of `stop_heartbeat_loop` has returned, no heartbeat goes out until a
loop is started, whatever else is called meanwhile. -/
theorem silent_of_stop {front back : List Event}
    (hfront : runSteps HeartbeatLoop.step {} front = some s) (hstop : s.StopReturns caller t)
    (hnone : EveryStep HeartbeatLoop.step StartsNone t back)
    (hback : runSteps HeartbeatLoop.step t back = some s') :
    s'.heartbeatThread = none ∧ s'.sent = t.sent := by
  have hthread := heartbeatThread_of_stopReturns (orderly_of_run hfront) hstop
  refine runSteps_invariant (I := fun u => u.heartbeatThread = none ∧ u.sent = t.sent)
    (fun u event u' hu hnone hstep => ?_) ⟨hthread, rfl⟩ hnone hback
  obtain ⟨hthread', hsent⟩ := silent_step hu.1 hnone hstep
  exact ⟨hthread', hsent.trans hu.2⟩

def stopped : List Event :=
  stopping ++ [.tick .lasts, .tick .throws, .tick .returns, .tick .returns, .go 2 true]

def afterwards : List Event :=
  [.call (.start (some 8)), .go 3 true, .go 3 true, .go 3 true, .go 3 true, .go 3 false,
    .call .disconnect, .go 4 true, .go 4 true, .go 4 true, .go 4 true]

theorem silent_of_stop_stopped :
    ∃ s t s', runSteps HeartbeatLoop.step {} stopped = some s ∧ s.StopReturns 2 t ∧
      runSteps HeartbeatLoop.step t afterwards = some s' ∧
      s'.heartbeatThread = none ∧ s'.sent = t.sent := by
  have hrun : ∃ s, runSteps HeartbeatLoop.step {} stopped = some s ∧
      ∃ t, s.StopReturns 2 t ∧ EveryStep HeartbeatLoop.step StartsNone t afterwards ∧
        ∃ s', runSteps HeartbeatLoop.step t afterwards = some s' :=
    ⟨_, rfl, _, ⟨Or.inr rfl, rfl, rfl⟩, by decide, _, rfl⟩
  obtain ⟨s, hfront, t, hstop, hnone, s', hback⟩ := hrun
  exact ⟨s, t, s', hfront, hstop, hback, silent_of_stop hfront hstop hnone hback⟩

/-! ## Calls that return -/

def remaining (s : HeartbeatLoop) : Nat :=
  s.heartbeatThread.elim 0 LoopPhase.rank + (s.callers.map CallPhase.rank).sum

/-- The caller waits for the loop thread, or has joined it. -/
def Waits (s : HeartbeatLoop) (caller : Nat) : Prop :=
  s.callers[caller]? = some .joining ∨ s.callers[caller]? = some .lowering

/-- No one calls anew, and the loop catches what its calls throw. -/
def Going : Event → Prop
  | .call _ => False
  | .go _ _ => True
  | .tick outcome => outcome ≠ .escapes

theorem escaped_goOn {created : Bool} (hstep : s.goOn caller created phase = some s') :
    s'.escaped = s.escaped := by
  cases phase with
  | calls call =>
      cases call with
      | connect | disconnect =>
          cases hstep
          rfl
      | start provider | stop =>
          simp only [HeartbeatLoop.goOn, HeartbeatLoop.lock] at hstep
          split at hstep <;> cases hstep
          rfl
  | exchanging provider | loading =>
      simp only [HeartbeatLoop.goOn] at hstep
      split at hstep <;> cases hstep <;> rfl
  | spawning =>
      simp only [HeartbeatLoop.goOn] at hstep
      split at hstep
      · split at hstep <;> cases hstep <;> rfl
      · cases hstep
        rfl
  | joining =>
      simp only [HeartbeatLoop.goOn] at hstep
      split at hstep <;> cases hstep <;> rfl
  | disconnecting | assigning provider | clearing | raising | lowering =>
      cases hstep
      rfl
  | returned => cases hstep

theorem remaining_enter {next : CallPhase} (hphase : s.callers[caller]? = some phase)
    (hcallers : t.callers = s.callers) (hthread : t.heartbeatThread = s.heartbeatThread)
    (hlt : next.rank < phase.rank) : (t.enter caller next).remaining < s.remaining := by
  have hsum := sum_map_set_lt hphase hlt
  simp only [remaining, enter, hcallers, hthread]
  omega

theorem Orderly.goOn_of_waits {other : Nat} {created : Bool} (h : s.Orderly)
    (hwaits : s.Waits caller) (hphase : s.callers[other]? = some phase)
    (hstep : s.goOn other created phase = some s') :
    s'.remaining < s.remaining ∧ (s'.Waits caller ∨ s'.callers[caller]? = some .returned) := by
  have hholder : s.holder = some caller := by
    rcases hwaits with hwaits | hwaits <;> exact h.exclusive caller _ hwaits trivial
  have hlt : caller < s.callers.length := by
    rcases hwaits with hwaits | hwaits <;> exact (List.getElem?_eq_some_iff.mp hwaits).1
  have hself : phase.Holds → other = caller := by
    intro hholds
    have hother := h.exclusive other phase hphase hholds
    rw [hholder] at hother
    exact (Option.some.inj hother).symm
  -- A caller without the mutex leaves the waiting one where it is.
  have hkept : ∀ {t : HeartbeatLoop} (next : CallPhase), ¬ phase.Holds →
      t.callers = s.callers → (t.enter other next).Waits caller := by
    intro t next hholds hcallers
    have hne : other ≠ caller := by
      rintro rfl
      rcases hwaits with hwaits | hwaits <;> rw [hphase] at hwaits <;> cases hwaits <;>
        exact hholds trivial
    rw [Waits, enter, List.getElem?_set_ne hne, hcallers]
    exact hwaits
  cases phase with
  | calls call =>
      cases call with
      | connect =>
          cases hstep
          exact ⟨remaining_enter hphase rfl rfl (by decide), Or.inl (hkept _ not_false rfl)⟩
      | disconnect =>
          cases hstep
          refine ⟨remaining_enter hphase rfl rfl ?_, Or.inl (hkept _ not_false rfl)⟩
          split <;> decide
      | start provider | stop =>
          simp only [HeartbeatLoop.goOn, HeartbeatLoop.lock, hholder] at hstep
          cases hstep
  | disconnecting =>
      cases hstep
      exact ⟨remaining_enter hphase rfl rfl (by decide), Or.inl (hkept _ not_false rfl)⟩
  | joining =>
      cases hself trivial
      obtain ⟨-, hsome, -⟩ := h.agrees hphase trivial
      simp only [HeartbeatLoop.goOn] at hstep
      split at hstep
      · rename_i hnone
        simp [hnone] at hsome
      · rename_i hended
        cases hstep
        have hsum := @sum_map_set_lt _ _ _ _ CallPhase.lowering CallPhase.rank hphase (by decide)
        refine ⟨?_, Or.inl (Or.inr (List.getElem?_set_self hlt))⟩
        simp only [remaining, enter, hended, Option.elim_none, Option.elim_some, LoopPhase.rank]
        omega
      · cases hstep
  | lowering =>
      cases hself trivial
      cases hstep
      exact ⟨remaining_enter hphase rfl rfl (by decide), Or.inr (List.getElem?_set_self hlt)⟩
  | exchanging provider | assigning provider | clearing | spawning | loading | raising =>
      cases hself trivial
      rcases hwaits with hwaits | hwaits <;> rw [hphase] at hwaits <;> cases hwaits
  | returned => cases hstep

/-- A step of the loop brings it nearer to its end, unless a call of it goes on. -/
theorem rank_tick {outcome : Outcome} {loop : LoopPhase} (hstop : s.stopHeartbeat = true)
    (hends : outcome ≠ .escapes) (hstep : s.tick outcome loop = some s') :
    outcome = .lasts ∧ s' = s ∨ ∃ next, s' = { s with sent := s'.sent }.loopTo next ∧
      next.rank < loop.rank := by
  cases loop with
  | testing =>
      cases hstep
      refine Or.inr ⟨_, rfl, ?_⟩
      rw [if_pos hstop]
      decide
  | polling =>
      cases hstep
      refine Or.inr ⟨_, rfl, ?_⟩
      split <;> decide
  | providing =>
      simp only [HeartbeatLoop.tick] at hstep
      split at hstep
      · cases hstep
        exact Or.inr ⟨_, rfl, by decide⟩
      · cases hstep
        exact Or.inr ⟨_, rfl, by decide⟩
      · cases hstep
        exact Or.inl ⟨rfl, rfl⟩
      · cases hstep
        exact Or.inr ⟨_, rfl, Nat.lt_succ_self 4⟩
      · exact absurd rfl hends
  | sending provider =>
      simp only [HeartbeatLoop.tick] at hstep
      split at hstep
      · cases hstep
        exact Or.inr ⟨_, rfl, Nat.lt_succ_self 3⟩
      · cases hstep
        exact Or.inr ⟨_, rfl, Nat.lt_add_of_pos_right Nat.zero_lt_two⟩
  | requesting provider =>
      cases outcome with
      | lasts =>
          cases hstep
          exact Or.inl ⟨rfl, rfl⟩
      | returns | throws =>
          cases hstep
          exact Or.inr ⟨_, rfl, Nat.lt_succ_self 2⟩
      | escapes => exact absurd rfl hends
  | sleeping =>
      cases hstep
      exact Or.inr ⟨_, rfl, by decide⟩
  | ended => cases hstep

/-- While a caller waits, every step is one less, except that a call of the loop may go
on. -/
theorem Orderly.waits_step (h : s.Orderly) (hwaits : s.Waits caller) (hgoing : Going event)
    (hstep : s.step event = some s') :
    (s'.remaining < s.remaining ∨ event = .tick .lasts ∧ s' = s) ∧ s'.escaped = s.escaped ∧
      (s'.Waits caller ∨ s'.callers[caller]? = some .returned) := by
  obtain ⟨call, rfl, -⟩ | ⟨other, created, phase, -, hphase, hgo⟩ |
    ⟨outcome, loop, rfl, hthread, htick⟩ := step_cases hstep
  · exact hgoing.elim
  · obtain ⟨hlt, hends⟩ := h.goOn_of_waits hwaits hphase hgo
    exact ⟨Or.inl hlt, escaped_goOn hgo, hends⟩
  · rcases hwaits with hjoining | hlowering
    · obtain ⟨-, -, hstop⟩ := h.agrees hjoining trivial
      rcases rank_tick hstop hgoing htick with ⟨rfl, rfl⟩ | ⟨next, hnext, hlt⟩
      · exact ⟨Or.inr ⟨rfl, rfl⟩, rfl, Or.inl (Or.inl hjoining)⟩
      · rw [hnext]
        refine ⟨Or.inl ?_, rfl, Or.inl (Or.inl hjoining)⟩
        simp only [remaining, HeartbeatLoop.loopTo, hthread, Option.elim_some]
        omega
    · obtain ⟨-, hnone⟩ := h.agrees hlowering trivial
      cases hnone.symm.trans hthread

/-- Someone can go on, and the call that the loop has made can end. -/
theorem Orderly.exists_step (h : s.Orderly) (halive : s.escaped = false)
    (hwaits : s.Waits caller) :
    ∃ event s', (Going event ∧ event ≠ .tick .lasts) ∧ s.step event = some s' := by
  have hgo : ∀ {phase s'}, s.callers[caller]? = some phase →
      s.goOn caller true phase = some s' → s.step (.go caller true) = some s' := by
    intro phase s' hphase hgo
    simp only [HeartbeatLoop.step, hphase, Option.bind_eq_bind, Option.bind_some, h.alive, halive,
      Bool.or_self, Bool.false_eq_true, if_false]
    exact hgo
  rcases hwaits with hjoining | hlowering
  · obtain ⟨-, hsome, hstop⟩ := h.agrees hjoining trivial
    obtain ⟨loop, hthread⟩ := Option.isSome_iff_exists.mp hsome
    by_cases hended : loop = .ended
    · subst hended
      exact ⟨.go caller true, _, ⟨trivial, nofun⟩,
        hgo hjoining (by simp only [HeartbeatLoop.goOn, hthread]; rfl)⟩
    · have htick : ∃ s', s.tick .returns loop = some s' := by
        cases loop with
        | ended => exact absurd rfl hended
        | providing =>
            cases hprovider : s.statusProvider with
            | none => exact ⟨_, by simp only [HeartbeatLoop.tick, hprovider]; rfl⟩
            | some provider => exact ⟨_, by simp only [HeartbeatLoop.tick, hprovider]; rfl⟩
        | sending provider =>
            simp only [HeartbeatLoop.tick]
            split <;> exact ⟨_, rfl⟩
        | testing | polling | requesting provider | sleeping => exact ⟨_, rfl⟩
      obtain ⟨s', hs'⟩ := htick
      refine ⟨.tick .returns, s', ⟨nofun, nofun⟩, ?_⟩
      simp only [HeartbeatLoop.step, hthread, Option.bind_eq_bind, Option.bind_some, h.alive,
        halive, Bool.or_self, Bool.false_eq_true, if_false]
      exact hs'
  · exact ⟨.go caller true, _, ⟨trivial, nofun⟩, hgo hlowering rfl⟩

/-- A loop whose calls go on for so many more steps at most and then end. -/
def patientStep (t : HeartbeatLoop × Nat) (event : Event) : Option (HeartbeatLoop × Nat) :=
  if event = .tick .lasts then
    if t.2 = 0 then none else (t.1.step event).map fun s => (s, t.2 - 1)
  else (t.1.step event).map fun s => (s, t.2)

theorem patientStep_cases {t t' : HeartbeatLoop × Nat} (hstep : patientStep t event = some t') :
    t.1.step event = some t'.1 ∧
      (event ≠ .tick .lasts ∧ t'.2 = t.2 ∨ t'.2 + 1 = t.2) := by
  unfold patientStep at hstep
  split at hstep
  · split at hstep
    · cases hstep
    · rename_i hleft
      obtain ⟨s', hs', rfl⟩ := Option.map_eq_some_iff.mp hstep
      exact ⟨hs', Or.inr (Nat.sub_add_cancel (Nat.pos_of_ne_zero hleft))⟩
  · rename_i hother
    obtain ⟨s', hs', rfl⟩ := Option.map_eq_some_iff.mp hstep
    exact ⟨hs', Or.inl ⟨hother, rfl⟩⟩

/-- A call of `stop_heartbeat_loop` that waits for the loop thread returns, if the
call of the provider and the request end, however long they take: the loop comes to
its condition in a few steps, wherever it is and whoever waits for the mutex. -/
theorem returns_of_waits (hrun : runSteps HeartbeatLoop.step {} events = some s)
    (halive : s.escaped = false) (hwaits : s.Waits caller) (patience : Nat) :
    Inevitable patientStep (fun _ event => Going event) (fun _ event => Going event)
      (fun t => t.1.callers[caller]? = some .returned) (s, patience) := by
  apply Inevitable.of_until
  refine inevitable_of_wellFounded Nat.lt_wfRel.wf (fun t => t.1.remaining + t.2)
    (I := fun t => t.1.Orderly ∧ t.1.escaped = false ∧
      (t.1.Waits caller ∨ t.1.callers[caller]? = some .returned))
    (fun t event t' ht hgoing hstep => ?_) (fun t event t' ht hgoing hstep => ?_) (fun t ht => ?_)
    ⟨orderly_of_run hrun, halive, Or.inl hwaits⟩
  · obtain ⟨hnext, hpatience⟩ := patientStep_cases hstep
    obtain ⟨hless, -⟩ := ht.1.waits_step (ht.2.2.resolve_right hgoing.2) hgoing.1 hnext
    change t'.1.remaining + t'.2 < t.1.remaining + t.2
    rcases hless with hlt | ⟨hlasts, hsame⟩
    · omega
    · have hspent := hpatience.resolve_left fun hother => hother.1 hlasts
      rw [hsame]
      omega
  · obtain ⟨hnext, -⟩ := patientStep_cases hstep
    obtain ⟨-, hescaped, hends⟩ := ht.1.waits_step (ht.2.2.resolve_right hgoing.2) hgoing.1 hnext
    exact ⟨ht.1.step hnext, hescaped.trans ht.2.1, hends⟩
  · rcases ht.2.2 with hwaiting | hreturned
    · obtain ⟨event, s', ⟨hgoing, hother⟩, hnext⟩ := ht.1.exists_step ht.2.1 hwaiting
      refine Or.inr ⟨event, (s', t.2), hgoing, ?_⟩
      rw [patientStep, if_neg hother, hnext]
      rfl
    · exact Or.inl hreturned

theorem returns_of_waits_stopping :
    ∃ s, runSteps HeartbeatLoop.step {} stopping = some s ∧
      s.heartbeatThread = some (.requesting 7) ∧
      ∀ patience, Inevitable patientStep (fun _ event => Going event) (fun _ event => Going event)
        (fun t => t.1.callers[2]? = some .returned) (s, patience) :=
  ⟨_, rfl, rfl, @returns_of_waits _ 2 stopping rfl rfl (Or.inl rfl)⟩

/-- As long as the provider or the request goes on, the call waits. -/
theorem waits_of_lasts {loop : LoopPhase} (hthread : s.heartbeatThread = some loop)
    (hlasts : s.tick .lasts loop = some s) (hphase : s.callers[caller]? = some .joining) (n : Nat)
    (hrun : runSteps HeartbeatLoop.step s (List.replicate n (.tick .lasts)) = some t) :
    t = s ∧ ∀ created, t.step (.go caller created) = none := by
  have hsame : t = s := by
    induction n with
    | zero =>
        cases hrun
        rfl
    | succ n ih =>
        obtain ⟨u, hu, hrest⟩ := runSteps_cons.mp hrun
        obtain ⟨_, hevent, -⟩ | ⟨_, _, _, hevent, -⟩ | ⟨outcome, loop', hevent, hloop, htick⟩ :=
          step_cases hu
        · cases hevent
        · cases hevent
        · cases hevent
          rw [hthread] at hloop
          cases hloop
          rw [hlasts] at htick
          cases htick
          exact ih hrest
  subst hsame
  refine ⟨rfl, fun created => ?_⟩
  simp only [HeartbeatLoop.step, hphase, Option.bind_eq_bind, Option.bind_some,
    HeartbeatLoop.goOn, hthread]
  cases loop with
  | ended => cases hlasts
  | testing | polling | providing | sending provider | requesting provider | sleeping =>
      split <;> rfl

end HeartbeatLoop

end ElioP2P.Control
