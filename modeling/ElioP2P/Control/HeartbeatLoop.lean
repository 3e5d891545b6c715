import ElioP2P.Library.Runs

/-!
# The heartbeat loop

`connect`, `disconnect`, `start_heartbeat_loop` and `stop_heartbeat_loop` of
`src/control/client.cpp` and the thread that the last two start and join.  Any
number of threads call them at any time; a step is one access to what they
share.
-/

namespace ElioP2P.Control

inductive LoopPhase where
  /-- At the condition of the loop. -/
  | testing
  /-- Before it looks whether there is a provider and a connection. -/
  | polling
  /-- Calls the provider. -/
  | providing
  /-- At the beginning of `send_heartbeat`, with a status of this provider. -/
  | sending (provider : Nat)
  /-- In the HTTP request. -/
  | requesting (provider : Nat)
  | sleeping
  | ended
  deriving DecidableEq

/-- How the call stands that the loop has made: it goes on, it has returned, or an
exception has left it, a `std::exception` or another. -/
inductive Outcome where
  | lasts
  | returns
  | throws
  | escapes
  deriving DecidableEq

/-- Providers are told apart by numbers; a `std::function` may be empty. -/
inductive LoopCall where
  | connect
  | disconnect
  | start (provider : Option Nat)
  | stop
  deriving DecidableEq

inductive CallPhase where
  | calls (call : LoopCall)
  /-- `disconnect` has found a connection. -/
  | disconnecting
  /-- `start_heartbeat_loop` has the mutex, and is before `heartbeat_running.exchange(true)`. -/
  | exchanging (provider : Option Nat)
  | assigning (provider : Option Nat)
  | clearing
  | spawning
  /-- `stop_heartbeat_loop` has the mutex, and is before `heartbeat_running.load()`. -/
  | loading
  | raising
  | joining
  | lowering
  | returned
  deriving DecidableEq

structure HeartbeatLoop where
  connected : Bool := false
  heartbeatRunning : Bool := false
  stopHeartbeat : Bool := false
  statusProvider : Option Nat := none
  /-- None if it is not joinable. -/
  heartbeatThread : Option LoopPhase := none
  /-- Who holds `heartbeat_mutex`. -/
  holder : Option Nat := none
  callers : List CallPhase := []
  /-- The heartbeats whose requests have begun, by the provider of their status. -/
  sent : List Nat := []
  /-- `std::terminate`: the thread object was assigned while it was joinable. -/
  terminated : Bool := false
  /-- `std::terminate`: an exception that the loop does not catch has left it. -/
  escaped : Bool := false
  deriving DecidableEq

namespace HeartbeatLoop

/-- `created` is whether a thread can be created. -/
inductive Event where
  | call (call : LoopCall)
  | go (caller : Nat) (created : Bool)
  | tick (outcome : Outcome)
  deriving DecidableEq

def enter (s : HeartbeatLoop) (caller : Nat) (phase : CallPhase) : HeartbeatLoop :=
  { s with callers := s.callers.set caller phase }

def lock (s : HeartbeatLoop) (caller : Nat) (phase : CallPhase) : Option HeartbeatLoop :=
  match s.holder with
  | some _ => none
  | none => some ({ s with holder := some caller }.enter caller phase)

def unlock (s : HeartbeatLoop) (caller : Nat) : HeartbeatLoop :=
  { s with holder := none }.enter caller .returned

def goOn (s : HeartbeatLoop) (caller : Nat) (created : Bool) :
    CallPhase → Option HeartbeatLoop
  | .calls .connect => some ({ s with connected := true }.enter caller .returned)
  | .calls .disconnect =>
      some (s.enter caller (if s.connected then .disconnecting else .calls .stop))
  | .disconnecting => some ({ s with connected := false }.enter caller (.calls .stop))
  | .calls (.start provider) => s.lock caller (.exchanging provider)
  | .exchanging provider =>
      if s.heartbeatRunning then some (s.unlock caller)
      else some ({ s with heartbeatRunning := true }.enter caller (.assigning provider))
  | .assigning provider => some ({ s with statusProvider := provider }.enter caller .clearing)
  | .clearing => some ({ s with stopHeartbeat := false }.enter caller .spawning)
  | .spawning =>
      if created then
        if s.heartbeatThread.isSome then some { s with terminated := true }
        else some ({ s with heartbeatThread := some .testing }.unlock caller)
      else some ({ s with heartbeatRunning := false }.unlock caller)
  | .calls .stop => s.lock caller .loading
  | .loading => some (if s.heartbeatRunning then s.enter caller .raising else s.unlock caller)
  | .raising => some ({ s with stopHeartbeat := true }.enter caller .joining)
  | .joining =>
      match s.heartbeatThread with
      | none => some (s.enter caller .lowering)
      | some .ended => some ({ s with heartbeatThread := none }.enter caller .lowering)
      | some _ => none
  | .lowering => some ({ s with heartbeatRunning := false }.unlock caller)
  | .returned => none

def loopTo (s : HeartbeatLoop) (phase : LoopPhase) : HeartbeatLoop :=
  { s with heartbeatThread := some phase }

/-- The next step of the loop thread.  The provider and the request take as long as
they like.  An empty provider throws when it is called. -/
def tick (s : HeartbeatLoop) (outcome : Outcome) : LoopPhase → Option HeartbeatLoop
  | .testing => some (s.loopTo (if s.stopHeartbeat then .ended else .polling))
  | .polling =>
      some (s.loopTo (if s.statusProvider.isSome && s.connected then .providing else .sleeping))
  | .providing =>
      match s.statusProvider, outcome with
      | none, _ | some _, .throws => some (s.loopTo .sleeping)
      | some _, .lasts => some s
      | some provider, .returns => some (s.loopTo (.sending provider))
      | some _, .escapes => some { s with escaped := true }
  | .sending provider =>
      -- What throws here is the serialisation of the status.
      if s.connected && outcome != .throws then
        some ({ s with sent := s.sent ++ [provider] }.loopTo (.requesting provider))
      else some (s.loopTo .sleeping)
  | .requesting _ =>
      match outcome with
      | .lasts => some s
      | .returns | .throws => some (s.loopTo .sleeping)
      | .escapes => some { s with escaped := true }
  | .sleeping => some (s.loopTo .testing)
  | .ended => none

def step (s : HeartbeatLoop) : Event → Option HeartbeatLoop
  | .call call =>
      if s.terminated || s.escaped then none else some
        { s with callers := s.callers ++ [.calls call] }
  | .go caller created => do
      let phase ← s.callers[caller]?
      if s.terminated || s.escaped then none else s.goOn caller created phase
  | .tick outcome => do
      let phase ← s.heartbeatThread
      if s.terminated || s.escaped then none else s.tick outcome phase

end HeartbeatLoop

end ElioP2P.Control
