import Mathlib.Data.List.Basic
import Mathlib.Logic.Relation
import Mathlib.Tactic.Common

/-!
# Cooperative tasks over a shared state

A coroutine reads and writes a shared state and now and then suspends itself to
wait for an answer: from the outside world, for a task it has spawned, or for
the end of such a task.  Between two suspensions it runs alone.  `Program.step`
interleaves any number of such tasks in any order.

All nondeterminism is in the actions of a run, so a system of tasks is a
labelled transition function.
-/

namespace ElioP2P.Library

/-- The types a family of coroutines is written over. -/
structure Signature where
  /-- Questions to the outside world. -/
  External : Type
  Answer : External → Type
  /-- What a task can be started with. -/
  Job : Type
  [decidableEqJob : DecidableEq Job]
  Result : Type
  /-- What a task leaves that an exception has escaped from. -/
  thrown : Result
  /-- Local variables that a suspended coroutine lets others see. -/
  Frame : Type
  State : Type

attribute [instance] Signature.decidableEqJob

variable {S : Signature} {α β : Type}

abbrev Signature.Exchange (S : Signature) := Sigma S.Answer

/-- What a finished task leaves to the one that joins it. -/
structure Finished (S : Signature) where
  exchanges : List S.Exchange
  result : S.Result

/-- What a coroutine suspends itself for.  The handle of a task is its number
together with the job it was started with. -/
inductive Wait (S : Signature) where
  | external (e : S.External)
  | spawn (job : S.Job)
  | join (id : Nat) (job : S.Job)

def Wait.Reply : Wait S → Type
  | .external e => S.Answer e
  | .spawn _ => Nat
  | .join _ _ => Finished S

inductive Event (S : Signature) where
  | external (exchange : S.Exchange)
  | spawned (id : Nat) (job : S.Job)
  | joined (id : Nat) (job : S.Job) (finished : Finished S)

def Event.of : (w : Wait S) → w.Reply → Event S
  | .external e, answer => .external ⟨e, answer⟩
  | .spawn job, id => .spawned id job
  | .join id job, finished => .joined id job finished

def exchangesOf (history : List (Event S)) : List S.Exchange :=
  history.filterMap fun
    | .external exchange => some exchange
    | .spawned _ _ | .joined _ _ _ => none

@[simp] theorem exchangesOf_append (h h' : List (Event S)) :
    exchangesOf (h ++ h') = exchangesOf h ++ exchangesOf h' := by
  simp [exchangesOf]

/-! ## Coroutines -/

/-- `publish` only makes local variables visible, `diverge` is a section that
never comes to its end, and `raise` is an exception that nobody catches. -/
inductive Coroutine (S : Signature) (α : Type) : Type where
  | done (value : α)
  | diverge
  | raise
  | get (next : S.State → Coroutine S α)
  | set (s : S.State) (next : Coroutine S α)
  | publish (f : S.Frame → S.Frame) (next : Coroutine S α)
  | await (w : Wait S) (next : w.Reply → Coroutine S α)

namespace Coroutine

def bind : Coroutine S α → (α → Coroutine S β) → Coroutine S β
  | .done value, k => k value
  | .diverge, _ => .diverge
  | .raise, _ => .raise
  | .get next, k => .get fun s => (next s).bind k
  | .set s next, k => .set s (next.bind k)
  | .publish f next, k => .publish f (next.bind k)
  | .await w next, k => .await w fun reply => (next reply).bind k

instance : Monad (Coroutine S) where
  pure := .done
  bind := bind

theorem bind_done (c : Coroutine S α) : c.bind .done = c := by
  induction c with
  | done value => rfl
  | diverge => rfl
  | raise => rfl
  | get next ih => exact congrArg Coroutine.get (funext ih)
  | set s next ih => exact congrArg (Coroutine.set s) ih
  | publish f next ih => exact congrArg (Coroutine.publish f) ih
  | await w next ih => exact congrArg (Coroutine.await w) (funext ih)

def ask (e : S.External) : Coroutine S (S.Answer e) :=
  .await (.external e) fun answer => .done answer

def spawn (job : S.Job) : Coroutine S Nat := .await (.spawn job) fun id => .done id

def join (id : Nat) (job : S.Job) : Coroutine S (Finished S) :=
  .await (.join id job) fun finished => .done finished

def amend (f : S.Frame → S.Frame) : Coroutine S Unit := .publish f (.done ())

def reveal (frame : S.Frame) : Coroutine S Unit := amend fun _ => frame

/-- A section on the shared state; `none` if it never ends. -/
def atomically (f : S.State → Option (α × S.State)) : Coroutine S α :=
  .get fun s =>
    match f s with
    | none => .diverge
    | some (value, s') => .set s' (.done value)

def advance : Coroutine S α → S.State → S.Frame → Option (S.State × S.Frame × Coroutine S α)
  | .done value, s, frame => some (s, frame, .done value)
  | .diverge, _, _ => none
  | .raise, s, frame => some (s, frame, .raise)
  | .get next, s, frame => (next s).advance s frame
  | .set s' next, _, frame => next.advance s' frame
  | .publish f next, s, frame => next.advance s (f frame)
  | .await w next, s, frame => some (s, frame, .await w next)

inductive Next : Coroutine S α → Coroutine S α → Prop
  | get (next : S.State → Coroutine S α) (s : S.State) : Next (next s) (.get next)
  | set (s : S.State) (next : Coroutine S α) : Next next (.set s next)
  | publish (f : S.Frame → S.Frame) (next : Coroutine S α) : Next next (.publish f next)
  | await (w : Wait S) (next : w.Reply → Coroutine S α) (reply : w.Reply) :
      Next (next reply) (.await w next)

abbrev Below : Coroutine S α → Coroutine S α → Prop := Relation.TransGen Next

theorem wellFounded_below : WellFounded (Below (S := S) (α := α)) := by
  refine WellFounded.transGen ⟨fun c => ?_⟩
  induction c with
  | done value => exact ⟨_, fun _ h => nomatch h⟩
  | diverge => exact ⟨_, fun _ h => nomatch h⟩
  | raise => exact ⟨_, fun _ h => nomatch h⟩
  | get next ih =>
      refine ⟨_, fun c h => ?_⟩
      cases h with
      | get _ s => exact ih s
  | set s next ih =>
      refine ⟨_, fun c h => ?_⟩
      cases h
      exact ih
  | publish f next ih =>
      refine ⟨_, fun c h => ?_⟩
      cases h
      exact ih
  | await w next ih =>
      refine ⟨_, fun c h => ?_⟩
      cases h with
      | await _ _ reply => exact ih reply

theorem reflTransGen_of_advance {c c' : Coroutine S α} {s s' : S.State} {frame frame' : S.Frame}
    (h : c.advance s frame = some (s', frame', c')) : Relation.ReflTransGen Next c' c := by
  induction c generalizing s frame with
  | done value =>
      cases h
      exact .refl
  | diverge => cases h
  | raise =>
      cases h
      exact .refl
  | get next ih => exact (ih s h).tail (.get next s)
  | set t next ih => exact (ih h).tail (.set t next)
  | publish f next ih => exact (ih h).tail (.publish f next)
  | await w next ih =>
      cases h
      exact .refl

theorem below_of_await {w : Wait S} {next : w.Reply → Coroutine S α} {reply : w.Reply}
    {c : Coroutine S α} {s s' : S.State} {frame frame' : S.Frame}
    (h : (next reply).advance s frame = some (s', frame', c)) : Below c (.await w next) :=
  Relation.TransGen.tail' (reflTransGen_of_advance h) (.await w next reply)

end Coroutine

/-! ## Systems of tasks -/

structure Task (S : Signature) where
  job : S.Job
  frame : S.Frame
  history : List (Event S)
  rest : Coroutine S S.Result

def Task.result? (task : Task S) : Option S.Result :=
  match task.rest with
  | .done result => some result
  | .raise => some S.thrown
  | _ => none

theorem Task.rest_of_result? {task : Task S} {result : S.Result}
    (h : task.result? = some result) :
    task.rest = .done result ∨ task.rest = .raise ∧ result = S.thrown := by
  unfold result? at h
  split at h
  · rename_i hrest
    exact Or.inl (by rw [hrest, Option.some.inj h])
  · rename_i hrest
    exact Or.inr ⟨hrest, (Option.some.inj h).symm⟩
  · cases h

structure Program (S : Signature) where
  /-- The frame of a task that has shown nothing yet. -/
  blank : S.Frame
  entry : S.Job → Coroutine S S.Result

structure System (S : Signature) where
  shared : S.State
  tasks : List (Task S)

/-- All nondeterminism: which task goes on, and what it is told. -/
inductive Action (S : Signature) where
  | start (job : S.Job)
  | resume (id : Nat) (reply : (e : S.External) → S.Answer e)

def System.initial (s : S.State) : System S := ⟨s, []⟩

def System.finished (sys : System S) (id : Nat) (job : S.Job) : Option (Finished S) := do
  let task ← sys.tasks[id]?
  let result ← task.result?
  if task.job = job then some ⟨exchangesOf task.history, result⟩ else none

namespace Program

variable (P : Program S)

def newTask (job : S.Job) : Task S := ⟨job, P.blank, [], .get fun _ => P.entry job⟩

/-- How a suspended task goes on: the event that wakes it, the task it has
spawned and what is left of it.  Nothing if it cannot go on yet. -/
def wake (sys : System S) (task : Task S) (reply : (e : S.External) → S.Answer e) :
    Option (List (Event S) × List (Task S) × Coroutine S S.Result) :=
  match task.rest with
  | .done _ | .raise => none
  | .await (.external e) next => some ([.external ⟨e, reply e⟩], [], next (reply e))
  | .await (.spawn job) next =>
      some ([.spawned sys.tasks.length job], [P.newTask job], next sys.tasks.length)
  | .await (.join id job) next =>
      (sys.finished id job).map fun finished => ([.joined id job finished], [], next finished)
  | rest => some ([], [], rest)

def step (sys : System S) : Action S → Option (System S)
  | .start job => some { sys with tasks := sys.tasks ++ [P.newTask job] }
  | .resume id reply => do
      let task ← sys.tasks[id]?
      let (events, spawned, rest) ← P.wake sys task reply
      let (shared, frame, rest) ← rest.advance sys.shared task.frame
      some
        { shared := shared
          tasks := sys.tasks.set id
            ⟨task.job, frame, task.history ++ events, rest⟩ ++ spawned }

end Program

end ElioP2P.Library
