import ElioP2P.Library.Steps

/-!
# The writes of a section

Between two suspensions a coroutine may write the shared state several times.
`Coroutine.Upholds` is a judgement for properties that have to hold after every
single write, under an assumption about the state in which a task is resumed that
the run is known to meet; `System.Upheld` carries it through the steps of a system
of tasks.
-/

namespace ElioP2P.Library

variable {S : Signature} {α β : Type}

def Coroutine.writes : Coroutine S α → S.State → List (S.State × S.State)
  | .done _, _ | .diverge, _ | .raise, _ | .await _ _, _ => []
  | .get next, s => (next s).writes s
  | .set s' next, s => (s, s') :: next.writes s'
  | .publish _ next, s => next.writes s

def Program.writes (P : Program S) (sys : System S) : Action S → List (S.State × S.State)
  | .start _ => []
  | .resume id reply =>
      ((sys.tasks[id]?.bind fun task => P.wake sys task reply).map fun woken =>
        woken.2.2.writes sys.shared).getD []

/-! ## Judgements about one coroutine -/

/-- What holds after every write, in which states a task that waits is resumed,
and which jobs may be spawned. -/
structure Upkeep (S : Signature) where
  invariant : S.State → Prop
  assumes : Wait S → S.State → Prop
  allowed : S.Job → Prop

def Wait.Allowed (U : Upkeep S) : Wait S → Prop
  | .spawn job => U.allowed job
  | .external _ | .join _ _ => True

def Coroutine.Upholds (U : Upkeep S) (post : α → S.State → Prop) :
    Coroutine S α → S.State → Prop
  | .done value, s => post value s
  | .diverge, _ | .raise, _ => True
  | .get next, s => (next s).Upholds U post s
  | .set s' next, _ => U.invariant s' ∧ next.Upholds U post s'
  | .publish _ next, s => next.Upholds U post s
  | .await w next, _ =>
      w.Allowed U ∧ ∀ reply s', U.invariant s' → U.assumes w s' →
        (next reply).Upholds U post s'

namespace Coroutine

variable {U : Upkeep S} {post post' : α → S.State → Prop} {s : S.State}

theorem Upholds.seq {c : Coroutine S α} {k : α → Coroutine S β} {post' : β → S.State → Prop}
    (hc : c.Upholds U post s) (hk : ∀ value s, post value s → (k value).Upholds U post' s) :
    (c >>= k).Upholds U post' s := by
  change (c.bind k).Upholds U post' s
  induction c generalizing s with
  | done value => exact hk _ _ hc
  | diverge => trivial
  | raise => trivial
  | get next ih => exact ih s hc
  | set s' next ih => exact ⟨hc.1, ih hc.2⟩
  | publish f next ih => exact ih hc
  | await w next ih =>
      exact ⟨hc.1, fun reply s' hs' hassumed => ih reply (hc.2 reply s' hs' hassumed)⟩

theorem Upholds.mono {c : Coroutine S α} (hc : c.Upholds U post s)
    (hpost : ∀ value s, post value s → post' value s) : c.Upholds U post' s := by
  rw [← bind_done c]
  exact hc.seq hpost

theorem Upholds.bind {c : Coroutine S α} {k : α → Coroutine S β} {post : β → S.State → Prop}
    (hc : c.Upholds U (fun value s => (k value).Upholds U post s) s) :
    (c >>= k).Upholds U post s :=
  hc.seq fun _ _ hk => hk

def Steady (U : Upkeep S) (c : Coroutine S α) : Prop :=
  ∀ s, U.invariant s → c.Upholds U (fun _ s' => U.invariant s') s

theorem Steady.bind {c : Coroutine S α} {k : α → Coroutine S β} (hc : Steady U c)
    (hk : ∀ value, Steady U (k value)) : Steady U (c >>= k) :=
  fun s hs => (hc s hs).seq fun value s' hs' => hk value s' hs'

theorem Upholds.writes {c : Coroutine S α} (hc : c.Upholds U post s) :
    ∀ w ∈ c.writes s, U.invariant w.2 := by
  induction c generalizing s with
  | done value => simp [Coroutine.writes]
  | diverge => simp [Coroutine.writes]
  | raise => simp [Coroutine.writes]
  | get next ih => exact ih s hc
  | set s' next ih =>
      rw [Coroutine.writes, List.forall_mem_cons]
      exact ⟨hc.1, ih hc.2⟩
  | publish f next ih => exact ih hc
  | await w next ih => simp [Coroutine.writes]

def Continues (U : Upkeep S) : Coroutine S α → Prop
  | .done _ | .raise => True
  | .await w next => w.Allowed U ∧
      ∀ reply s, U.invariant s → U.assumes w s → (next reply).Upholds U (fun _ _ => True) s
  | c => ∀ s, U.invariant s → c.Upholds U (fun _ _ => True) s

theorem Upholds.advance {c c' : Coroutine S α} {s' : S.State} {frame frame' : S.Frame}
    (hc : c.Upholds U (fun _ _ => True) s) (hs : U.invariant s)
    (hrun : c.advance s frame = some (s', frame', c')) : U.invariant s' ∧ Continues U c' := by
  induction c generalizing s frame with
  | done value =>
      cases hrun
      exact ⟨hs, trivial⟩
  | diverge => cases hrun
  | raise =>
      cases hrun
      exact ⟨hs, trivial⟩
  | get next ih => exact ih s hc hs hrun
  | set t next ih => exact ih hc.2 hc.1 hrun
  | publish f next ih => exact ih hc hs hrun
  | await w next ih =>
      cases hrun
      exact ⟨hs, hc⟩

end Coroutine

/-! ## A system of tasks -/

structure System.Upheld (U : Upkeep S) (sys : System S) : Prop where
  shared : U.invariant sys.shared
  tasks : ∀ task ∈ sys.tasks, Coroutine.Continues U task.rest

namespace System.Upheld

variable {U : Upkeep S} {P : Program S} {sys sys' : System S} {action : Action S}

theorem initial {s : S.State} (hs : U.invariant s) : (System.initial s).Upheld U :=
  ⟨hs, fun _ htask => nomatch htask⟩

theorem newTask {job : S.Job} (hentry : Coroutine.Steady U (P.entry job)) :
    Coroutine.Continues U (P.newTask job).rest :=
  fun s hs => (hentry s hs).mono fun _ _ _ => trivial

theorem spawnedBy (hentry : ∀ job, U.allowed job → Coroutine.Steady U (P.entry job))
    {w : Wait S} (hw : w.Allowed U) :
    ∀ task ∈ P.spawnedBy w, Coroutine.Continues U task.rest := by
  intro task htask
  cases w with
  | spawn job =>
      rw [Program.spawnedBy, List.mem_singleton] at htask
      rw [htask]
      exact newTask (hentry job hw)
  | external e => cases htask
  | join id job => cases htask

def Resumable (U : Upkeep S) (sys : System S) : Action S → Prop
  | .start _ => True
  | .resume id _ =>
      ∀ task ∈ sys.tasks[id]?, ∀ w next, task.rest = .await w next → U.assumes w sys.shared

theorem wake (hentry : ∀ job, U.allowed job → Coroutine.Steady U (P.entry job))
    (h : sys.Upheld U) {id : Nat} {task : Task S} {reply : (e : S.External) → S.Answer e}
    {events : List (Event S)} {spawned : List (Task S)} {rest : Coroutine S S.Result}
    (hassumed : Resumable U sys (.resume id reply)) (htask : sys.tasks[id]? = some task)
    (hwake : P.wake sys task reply = some (events, spawned, rest)) :
    rest.Upholds U (fun _ _ => True) sys.shared ∧
      ∀ task ∈ spawned, Coroutine.Continues U task.rest := by
  have hcontinues := h.tasks task (List.mem_of_getElem? htask)
  rcases Program.wake_cases hwake with ⟨w, next, r, hrest, -, -, rfl, rfl⟩ |
    ⟨hawait, hnone, -, rfl, rfl⟩
  · rw [hrest] at hcontinues
    exact ⟨hcontinues.2 r sys.shared h.shared (hassumed task htask w next hrest),
      spawnedBy hentry hcontinues.1⟩
  · refine ⟨?_, by simp⟩
    unfold Task.result? at hnone
    revert hcontinues hnone hawait
    cases task.rest with
    | done value => simp
    | raise => simp
    | await w next => exact fun _ hawait => absurd rfl (hawait w next)
    | diverge => exact fun hcontinues _ _ => hcontinues sys.shared h.shared
    | get next => exact fun hcontinues _ _ => hcontinues sys.shared h.shared
    | set s next => exact fun hcontinues _ _ => hcontinues sys.shared h.shared
    | publish f next => exact fun hcontinues _ _ => hcontinues sys.shared h.shared

theorem writes_resume {id : Nat} {task : Task S} {reply : (e : S.External) → S.Answer e}
    {woken : List (Event S) × List (Task S) × Coroutine S S.Result}
    (htask : sys.tasks[id]? = some task) (hwake : P.wake sys task reply = some woken) :
    P.writes sys (.resume id reply) = woken.2.2.writes sys.shared := by
  simp [Program.writes, htask, hwake]

theorem writes (hentry : ∀ job, U.allowed job → Coroutine.Steady U (P.entry job))
    (h : sys.Upheld U) (hassumed : Resumable U sys action) :
    ∀ w ∈ P.writes sys action, U.invariant w.2 := by
  cases action with
  | start job => simp [Program.writes]
  | resume id reply =>
      cases htask : sys.tasks[id]? with
      | none => simp [Program.writes, htask]
      | some task =>
          cases hwake : P.wake sys task reply with
          | none => simp [Program.writes, htask, hwake]
          | some woken =>
              obtain ⟨events, spawned, rest⟩ := woken
              rw [writes_resume htask hwake]
              exact (h.wake hentry hassumed htask hwake).1.writes

theorem step (hentry : ∀ job, U.allowed job → Coroutine.Steady U (P.entry job))
    (h : sys.Upheld U) (hallowed : ∀ job, action = .start job → U.allowed job)
    (hassumed : Resumable U sys action)
    (hstep : P.step sys action = some sys') : sys'.Upheld U := by
  cases action with
  | start job =>
      cases hstep
      refine ⟨h.shared, fun task htask => ?_⟩
      rcases List.mem_append.mp htask with hold | hnew
      · exact h.tasks task hold
      · rw [List.mem_singleton.mp hnew]
        exact newTask (hentry job (hallowed job rfl))
  | resume id reply =>
      simp only [Program.step, Option.bind_eq_bind, Option.bind_eq_some_iff,
        Option.some.injEq] at hstep
      obtain ⟨task, htask, ⟨events, spawned, rest⟩, hwake, ⟨shared, frame, rest'⟩, hrun, rfl⟩ :=
        hstep
      obtain ⟨hrest, hspawned⟩ := h.wake hentry hassumed htask hwake
      obtain ⟨hshared, hcontinues⟩ := hrest.advance h.shared hrun
      refine ⟨hshared, fun other hother => ?_⟩
      rcases List.mem_append.mp hother with hset | hnew
      · rcases List.mem_or_eq_of_mem_set hset with hold | rfl
        · exact h.tasks other hold
        · exact hcontinues
      · exact hspawned other hnew

end System.Upheld

end ElioP2P.Library
