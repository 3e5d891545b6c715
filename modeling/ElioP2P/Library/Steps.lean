import ElioP2P.Library.Coroutine
import Mathlib.Algebra.Ring.Nat

/-!
# What a step of a system does

A step starts a job or lets one task go on.  `Program.Resumes` says all that has
happened when a task has gone on: which reply it got, what it has spawned, and
that the other tasks are as they were.
-/

namespace ElioP2P.Library

variable {S : Signature} {α : Type}

def System.Ended (sys : System S) (id : Nat) (job : S.Job) (finished : Finished S) : Prop :=
  ∃ child, sys.tasks[id]? = some child ∧ child.job = job ∧
    child.result? = some finished.result ∧ exchangesOf child.history = finished.exchanges

theorem System.ended_of_finished {sys : System S} {id : Nat} {job : S.Job}
    {finished : Finished S} (h : sys.finished id job = some finished) :
    sys.Ended id job finished := by
  simp only [System.finished, Option.bind_eq_bind, Option.bind_eq_some_iff] at h
  obtain ⟨task, htask, result, hresult, hjob⟩ := h
  split at hjob
  · rename_i heq
    cases hjob
    exact ⟨task, htask, heq, hresult, rfl⟩
  · cases hjob

/-- A coroutine does not stop in the middle of a section. -/
theorem Coroutine.advance_ne_get {c : Coroutine S α} {s s' : S.State} {frame frame' : S.Frame}
    {next : S.State → Coroutine S α} : c.advance s frame ≠ some (s', frame', .get next) := by
  intro hrun
  induction c generalizing s frame with
  | done value => cases hrun
  | diverge => cases hrun
  | raise => cases hrun
  | get next' ih => exact ih s hrun
  | set t next' ih => exact ih hrun
  | publish f next' ih => exact ih hrun
  | await w next' ih => cases hrun

theorem getElem?_set_cases {γ : Type} {l : List γ} {i j : Nat} {a b : γ}
    (h : (l.set i a)[j]? = some b) : (j = i ∧ b = a) ∨ (j ≠ i ∧ l[j]? = some b) := by
  rw [List.getElem?_set] at h
  split at h
  · rename_i hij
    split at h
    · exact Or.inl ⟨hij.symm, (Option.some.inj h).symm⟩
    · cases h
  · rename_i hij
    exact Or.inr ⟨Ne.symm hij, h⟩

theorem sum_map_set_lt {γ : Type} {l : List γ} {i : Nat} {a b : γ} {rank : γ → Nat}
    (h : l[i]? = some a) (hlt : rank b < rank a) :
    ((l.set i b).map rank).sum < (l.map rank).sum := by
  induction l generalizing i with
  | nil => cases h
  | cons c l ih =>
      cases i with
      | zero =>
          cases h
          simpa using hlt
      | succ i => simpa using ih h

def System.Gives (sys : System S) (reply : (e : S.External) → S.Answer e) :
    (w : Wait S) → w.Reply → Prop
  | .external e, answer => answer = reply e
  | .spawn _, id => id = sys.tasks.length
  | .join id job, finished => sys.finished id job = some finished

def Program.spawnedBy (P : Program S) : Wait S → List (Task S)
  | .spawn job => [P.newTask job]
  | .external _ | .join _ _ => []

def Task.Fresh (task : Task S) : Prop := ∃ next, task.rest = .get next

structure Program.Resumes (P : Program S) (reply : (e : S.External) → S.Answer e)
    (sys sys' : System S) (id : Nat) (task task' : Task S) (spawned : List (Task S)) : Prop where
  found : sys.tasks[id]? = some task
  job : task'.job = task.job
  tasks : sys'.tasks = sys.tasks.set id task' ++ spawned
  wakes :
    (∃ w next r, task.rest = .await w next ∧ sys.Gives reply w r ∧
      task'.history = task.history ++ [.of w r] ∧ spawned = P.spawnedBy w ∧
      (next r).advance sys.shared task.frame = some (sys'.shared, task'.frame, task'.rest)) ∨
    ((∀ w next, task.rest ≠ .await w next) ∧ task.result? = none ∧ task'.history = task.history ∧
      spawned = [] ∧
      task.rest.advance sys.shared task.frame = some (sys'.shared, task'.frame, task'.rest))

theorem Program.wake_cases {P : Program S} {sys : System S} {task : Task S}
    {reply : (e : S.External) → S.Answer e} {events : List (Event S)} {spawned : List (Task S)}
    {rest : Coroutine S S.Result} (h : P.wake sys task reply = some (events, spawned, rest)) :
    (∃ w next r, task.rest = .await w next ∧ sys.Gives reply w r ∧ events = [.of w r] ∧
      spawned = P.spawnedBy w ∧ rest = next r) ∨
    ((∀ w next, task.rest ≠ .await w next) ∧ task.result? = none ∧ events = [] ∧
      spawned = [] ∧ rest = task.rest) := by
  unfold wake at h
  split at h
  · cases h
  · cases h
  · rename_i e next hrest
    cases h
    exact Or.inl ⟨.external e, next, _, hrest, rfl, rfl, rfl, rfl⟩
  · rename_i job next hrest
    cases h
    exact Or.inl ⟨.spawn job, next, _, hrest, rfl, rfl, rfl, rfl⟩
  · rename_i id job next hrest
    obtain ⟨finished, hfinished, hsome⟩ := Option.map_eq_some_iff.mp h
    cases hsome
    exact Or.inl ⟨.join id job, next, finished, hrest, hfinished, rfl, rfl, rfl⟩
  · rename_i hdone hraise hexternal hspawn hjoin
    cases h
    refine Or.inr ⟨fun w next hrest => ?_, ?_, rfl, rfl, rfl⟩
    · cases w with
      | external e => exact hexternal e next hrest
      | spawn job => exact hspawn job next hrest
      | join id job => exact hjoin id job next hrest
    · unfold Task.result?
      split
      · rename_i result hrest
        exact absurd hrest (hdone result)
      · rename_i hrest
        exact absurd hrest hraise
      · rfl

theorem Program.wake_of_gives (P : Program S) {sys : System S} {task : Task S}
    {reply : (e : S.External) → S.Answer e} {w : Wait S} {next : w.Reply → Coroutine S S.Result}
    {r : w.Reply} (hrest : task.rest = .await w next) (hgives : sys.Gives reply w r) :
    P.wake sys task reply = some ([.of w r], P.spawnedBy w, next r) := by
  unfold wake
  rw [hrest]
  cases w with
  | external e =>
      cases hgives
      rfl
  | spawn job =>
      cases hgives
      rfl
  | join id job =>
      change (sys.finished id job).map _ = _
      rw [show sys.finished id job = some r from hgives]
      rfl

theorem Program.resumes_of_step {P : Program S} {sys sys' : System S} {id : Nat}
    {reply : (e : S.External) → S.Answer e}
    (hstep : P.step sys (.resume id reply) = some sys') :
    ∃ task task' spawned, P.Resumes reply sys sys' id task task' spawned := by
  simp only [step, Option.bind_eq_bind, Option.bind_eq_some_iff, Option.some.injEq] at hstep
  obtain ⟨task, htask, ⟨events, spawned, rest⟩, hwake, ⟨shared, frame, rest'⟩, hrun, rfl⟩ := hstep
  refine ⟨task, ⟨task.job, frame, task.history ++ events, rest'⟩, spawned, htask, rfl, rfl, ?_⟩
  rcases wake_cases hwake with ⟨w, next, r, hrest, hgives, rfl, rfl, rfl⟩ |
    ⟨hawait, hnone, rfl, rfl, rfl⟩
  · exact Or.inl ⟨w, next, r, hrest, hgives, rfl, rfl, hrun⟩
  · exact Or.inr ⟨hawait, hnone, by simp, rfl, hrun⟩

theorem Program.step_cases {P : Program S} {sys sys' : System S} {action : Action S}
    (h : P.step sys action = some sys') :
    (∃ job, action = .start job ∧ sys' = { sys with tasks := sys.tasks ++ [P.newTask job] }) ∨
    ∃ id reply task task' spawned, action = .resume id reply ∧
      P.Resumes reply sys sys' id task task' spawned := by
  cases action with
  | start job =>
      cases h
      exact Or.inl ⟨job, rfl, rfl⟩
  | resume id reply =>
      obtain ⟨task, task', spawned, hresumes⟩ := resumes_of_step h
      exact Or.inr ⟨id, reply, task, task', spawned, rfl, hresumes⟩

namespace Program.Resumes

variable {P : Program S} {reply : (e : S.External) → S.Answer e} {sys sys' : System S} {id : Nat}
  {task task' : Task S} {spawned : List (Task S)}

theorem lt_length (h : P.Resumes reply sys sys' id task task' spawned) : id < sys.tasks.length :=
  (List.getElem?_eq_some_iff.mp h.found).1

theorem unfinished (h : P.Resumes reply sys sys' id task task' spawned) : task.result? = none := by
  rcases h.wakes with ⟨w, next, r, hrest, -⟩ | ⟨-, hnone, -⟩
  · simp [Task.result?, hrest]
  · exact hnone

theorem not_fresh (h : P.Resumes reply sys sys' id task task' spawned) : ¬task'.Fresh := by
  rintro ⟨next, hfresh⟩
  rcases h.wakes with ⟨w, next, r, -, -, -, -, hrun⟩ | ⟨-, -, -, -, hrun⟩
  · rw [hfresh] at hrun
    exact Coroutine.advance_ne_get hrun
  · rw [hfresh] at hrun
    exact Coroutine.advance_ne_get hrun

theorem getElem?_self (h : P.Resumes reply sys sys' id task task' spawned) :
    sys'.tasks[id]? = some task' := by
  rw [h.tasks, List.getElem?_append_left (by simpa using h.lt_length),
    List.getElem?_set_self h.lt_length]

theorem getElem?_other (h : P.Resumes reply sys sys' id task task' spawned) {other : Nat}
    {t : Task S} (hne : other ≠ id) (ht : sys.tasks[other]? = some t) :
    sys'.tasks[other]? = some t := by
  have hlt := (List.getElem?_eq_some_iff.mp ht).1
  rw [h.tasks, List.getElem?_append_left (by simpa using hlt), List.getElem?_set_ne hne.symm, ht]

theorem task_cases (h : P.Resumes reply sys sys' id task task' spawned) {other : Nat} {t : Task S}
    (ht : sys'.tasks[other]? = some t) :
    (other = id ∧ t = task') ∨ (other ≠ id ∧ sys.tasks[other]? = some t) ∨
      (other = sys.tasks.length ∧ ∃ job next, task.rest = .await (.spawn job) next ∧
        t = P.newTask job) := by
  rw [h.tasks] at ht
  rcases Nat.lt_or_ge other sys.tasks.length with hlt | hge
  · rw [List.getElem?_append_left (by simpa using hlt)] at ht
    rcases getElem?_set_cases ht with ⟨hid, hself⟩ | ⟨hne, hold⟩
    · exact Or.inl ⟨hid, hself⟩
    · exact Or.inr (Or.inl ⟨hne, hold⟩)
  · rw [List.getElem?_append_right (by simpa using hge), List.length_set] at ht
    rcases h.wakes with ⟨w, next, r, hrest, -, -, rfl, -⟩ | ⟨-, -, -, rfl, -⟩
    · cases w with
      | spawn job =>
          obtain ⟨hzero, hnew⟩ := List.getElem?_eq_some_iff.mp ht
          simp only [spawnedBy, List.length_singleton, List.getElem_singleton] at hzero hnew
          exact Or.inr (Or.inr ⟨by omega, job, next, hrest, hnew.symm⟩)
      | external e => cases ht
      | join child job => cases ht
    · cases ht

theorem forall_tasks {Q : Task S → Prop} (h : P.Resumes reply sys sys' id task task' spawned)
    (hself : Q task') (hold : ∀ t ∈ sys.tasks, Q t)
    (hnew : ∀ job next, task.rest = .await (.spawn job) next → Q (P.newTask job)) :
    ∀ t ∈ sys'.tasks, Q t := by
  intro t ht
  obtain ⟨other, hother⟩ := List.mem_iff_getElem?.mp ht
  rcases h.task_cases hother with ⟨-, rfl⟩ | ⟨-, hother⟩ | ⟨-, job, next, hrest, rfl⟩
  · exact hself
  · exact hold t (List.mem_of_getElem? hother)
  · exact hnew job next hrest

theorem job_kept (h : P.Resumes reply sys sys' id task task' spawned) {other : Nat} {t : Task S}
    (ht : sys.tasks[other]? = some t) :
    ∃ t', sys'.tasks[other]? = some t' ∧ t'.job = t.job := by
  by_cases hne : other = id
  · subst hne
    rw [h.found] at ht
    cases ht
    exact ⟨task', h.getElem?_self, h.job⟩
  · exact ⟨t, h.getElem?_other hne ht, rfl⟩

theorem ended_kept (h : P.Resumes reply sys sys' id task task' spawned) {other : Nat}
    {t : Task S} {result : S.Result} (ht : sys.tasks[other]? = some t)
    (hresult : t.result? = some result) : sys'.tasks[other]? = some t := by
  refine h.getElem?_other ?_ ht
  rintro rfl
  rw [h.found] at ht
  cases ht
  rw [h.unfinished] at hresult
  cases hresult

theorem ended (h : P.Resumes reply sys sys' id task task' spawned) {child : Nat} {job : S.Job}
    {finished : Finished S} (hended : sys.Ended child job finished) :
    sys'.Ended child job finished := by
  obtain ⟨c, hc, hjob, hresult, hexchanges⟩ := hended
  exact ⟨c, h.ended_kept hc hresult, hjob, hresult, hexchanges⟩

theorem getElem?_spawned (h : P.Resumes reply sys sys' id task task' spawned) {job : S.Job}
    {next : Nat → Coroutine S S.Result} (hrest : task.rest = .await (.spawn job) next) :
    sys'.tasks[sys.tasks.length]? = some (P.newTask job) := by
  rcases h.wakes with ⟨w, next', r, hrest', -, -, hspawned, -⟩ | ⟨hawait, -⟩
  · rw [hrest] at hrest'
    cases hrest'
    rw [h.tasks, hspawned, List.getElem?_append_right (by simp)]
    simp [spawnedBy]
  · exact absurd hrest (hawait (.spawn job) next)

theorem event_cases (h : P.Resumes reply sys sys' id task task' spawned) :
    ∀ t ∈ sys'.tasks, ∀ event ∈ t.history, (∃ t₀ ∈ sys.tasks, event ∈ t₀.history) ∨
      ∃ w next r, task.rest = .await w next ∧ sys.Gives reply w r ∧ event = .of w r := by
  refine h.forall_tasks (fun event hmem => ?_) (fun t ht event hmem => Or.inl ⟨t, ht, hmem⟩)
    fun job next hrest event hmem => nomatch hmem
  have htask : task ∈ sys.tasks := List.mem_of_getElem? h.found
  rcases h.wakes with ⟨w, next, r, hrest, hgives, hhistory, -⟩ | ⟨-, -, hhistory, -⟩
  · rw [hhistory, List.mem_append, List.mem_singleton] at hmem
    rcases hmem with hearlier | hnow
    · exact Or.inl ⟨task, htask, hearlier⟩
    · exact Or.inr ⟨w, next, r, hrest, hgives, hnow⟩
  · rw [hhistory] at hmem
    exact Or.inl ⟨task, htask, hmem⟩

theorem spawned_cases (h : P.Resumes reply sys sys' id task task' spawned) {child : Nat}
    {job : S.Job} (hmem : .spawned child job ∈ task'.history) :
    .spawned child job ∈ task.history ∨
      (child = sys.tasks.length ∧ ∃ next, task.rest = .await (.spawn job) next) := by
  rcases h.wakes with ⟨w, next, r, hrest, hgives, hhistory, -⟩ | ⟨-, -, hhistory, -⟩
  · rw [hhistory, List.mem_append, List.mem_singleton] at hmem
    refine hmem.imp_right fun hnow => ?_
    cases w with
    | spawn job' =>
        cases hnow
        exact ⟨hgives, next, hrest⟩
    | external e => cases hnow
    | join child' job' => cases hnow
  · rw [hhistory] at hmem
    exact Or.inl hmem

theorem joins (h : P.Resumes reply sys sys' id task task' spawned)
    (hsys : ∀ t ∈ sys.tasks, ∀ child job finished, .joined child job finished ∈ t.history →
      sys.Ended child job finished) :
    ∀ t ∈ sys'.tasks, ∀ child job finished, .joined child job finished ∈ t.history →
      sys'.Ended child job finished := by
  intro t ht child job finished hmem
  rcases h.event_cases t ht _ hmem with ⟨t₀, ht₀, hearlier⟩ | ⟨w, next, r, hrest, hgives, hnow⟩
  · exact h.ended (hsys t₀ ht₀ child job finished hearlier)
  · cases w with
    | join child' job' =>
        cases hnow
        exact h.ended (System.ended_of_finished hgives)
    | external e => cases hnow
    | spawn job' => cases hnow

end Program.Resumes

end ElioP2P.Library
