import ElioP2P.Library.RelyGuarantee
import ElioP2P.Library.Runs

/-!
# What a task asks for

A discipline says which questions a task may ask, given all that it has asked
and been told before, what it may assume of the replies, and what the shared
state keeps.  `Coroutine.Follows` is the judgement about one coroutine and
`System.Follows` carries it through the steps of a system of tasks.
-/

namespace ElioP2P.Library

variable {S : Signature} {α β : Type}

def Event.wait : Event S → Wait S
  | .external exchange => .external exchange.1
  | .spawned _ job => .spawn job
  | .joined id job _ => .join id job

@[simp] theorem Event.wait_of (w : Wait S) (reply : w.Reply) : (Event.of w reply).wait = w := by
  cases w <;> rfl

def Coroutine.pending : Coroutine S α → List (Wait S)
  | .await w _ => [w]
  | _ => []

def Task.asked (task : Task S) : List (Wait S) :=
  task.history.map Event.wait ++ task.rest.pending

structure Discipline (S : Signature) where
  /-- Holds of the shared state at every suspension. -/
  invariant : S.State → Prop
  /-- The changes that sections make and that a suspended task may find. -/
  changes : S.State → S.State → Prop
  /-- What a task may assume of a reply, in the state in which it gets it. -/
  assumes : S.Job → List (Event S) → S.State → (w : Wait S) → w.Reply → Prop
  /-- What it may ask, in the state that it leaves. -/
  permits : S.Job → List (Event S) → S.State → Wait S → Prop
  /-- What it ends in. -/
  ends : S.Job → List (Event S) → S.Result → S.State → Prop
  changes_refl : ∀ s, changes s s
  changes_trans : ∀ {s t u}, changes s t → changes t u → changes s u
  ends_stable : ∀ {job h result s s'}, changes s s' → ends job h result s → ends job h result s'
  ends_thrown : ∀ job h s, ends job h S.thrown s

def Discipline.Ended (D : Discipline S) (job : S.Job) (h : List (Event S)) (result : S.Result)
    (s : S.State) : Prop := D.invariant s ∧ D.ends job h result s

/-! ## Judgements about one coroutine -/

def Coroutine.Follows (D : Discipline S) (job : S.Job)
    (post : List (Event S) → α → S.State → Prop) :
    Coroutine S α → List (Event S) → S.State → Prop
  | .done value, h, s => post h value s
  | .diverge, _, _ => True
  | .raise, _, s => D.invariant s
  | .get next, h, s => (next s).Follows D job post h s
  | .set s' next, h, s => D.changes s s' ∧ next.Follows D job post h s'
  | .publish _ next, h, s => next.Follows D job post h s
  | .await w next, h, s =>
      D.invariant s ∧ D.permits job h s w ∧ ∀ s' reply, D.invariant s' → D.changes s s' →
        D.assumes job h s' w reply → (next reply).Follows D job post (h ++ [.of w reply]) s'

namespace Coroutine

variable {D : Discipline S} {job : S.Job} {post post' : List (Event S) → α → S.State → Prop}
  {h : List (Event S)} {s : S.State}

theorem Follows.seq {c : Coroutine S α} {k : α → Coroutine S β}
    {post' : List (Event S) → β → S.State → Prop} (hc : c.Follows D job post h s)
    (hk : ∀ h value s, post h value s → (k value).Follows D job post' h s) :
    (c >>= k).Follows D job post' h s := by
  change (c.bind k).Follows D job post' h s
  induction c generalizing h s with
  | done value => exact hk _ _ _ hc
  | diverge => trivial
  | raise => exact hc
  | get next ih => exact ih s hc
  | set s' next ih => exact ⟨hc.1, ih hc.2⟩
  | publish f next ih => exact ih hc
  | await w next ih =>
      refine ⟨hc.1, hc.2.1, ?_⟩
      intro s' reply hs' hchanges hreply
      exact ih reply (hc.2.2 s' reply hs' hchanges hreply)

theorem Follows.mono {c : Coroutine S α} (hc : c.Follows D job post h s)
    (hpost : ∀ h value s, post h value s → post' h value s) : c.Follows D job post' h s := by
  rw [← bind_done c]
  exact hc.seq hpost

/-- From its beginning to its end a coroutine makes and finds only such changes. -/
theorem Follows.changed {c : Coroutine S α} (hc : c.Follows D job post h s) :
    c.Follows D job (fun h value s' => post h value s' ∧ D.changes s s') h s := by
  have hfrom : ∀ s₀, D.changes s₀ s →
      c.Follows D job (fun h value s' => post h value s' ∧ D.changes s₀ s') h s := by
    induction c generalizing h s with
    | done value => exact fun s₀ hs₀ => ⟨hc, hs₀⟩
    | diverge => exact fun _ _ => trivial
    | raise => exact fun _ _ => hc
    | get next ih => exact ih s hc
    | set s' next ih => exact fun s₀ hs₀ => ⟨hc.1, ih hc.2 s₀ (D.changes_trans hs₀ hc.1)⟩
    | publish f next ih => exact ih hc
    | await w next ih =>
        intro s₀ hs₀
        refine ⟨hc.1, hc.2.1, ?_⟩
        intro s' reply hs' hchanges hreply
        exact ih reply (hc.2.2 s' reply hs' hchanges hreply) s₀ (D.changes_trans hs₀ hchanges)
  exact hfrom s (D.changes_refl s)

theorem follows_atomically {f : S.State → Option (α × S.State)}
    (hf : ∀ value s', f s = some (value, s') → D.changes s s' ∧ post h value s') :
    (atomically f).Follows D job post h s := by
  simp only [atomically, Follows]
  cases hfs : f s with
  | none => trivial
  | some result => exact hf result.1 result.2 hfs

theorem follows_ask {e : S.External} (hs : D.invariant s)
    (hpermits : D.permits job h s (.external e)) :
    (ask e).Follows D job (fun h' answer s' => h' = h ++ [.external ⟨e, answer⟩] ∧
      D.invariant s' ∧ D.changes s s' ∧ D.assumes job h s' (.external e) answer) h s :=
  ⟨hs, hpermits, fun _ _ hs' hchanges hanswer => ⟨rfl, hs', hchanges, hanswer⟩⟩

theorem follows_spawn {child : S.Job} (hs : D.invariant s)
    (hpermits : D.permits job h s (.spawn child)) :
    (spawn child).Follows D job (fun _ _ s' => D.invariant s' ∧ D.changes s s') h s :=
  ⟨hs, hpermits, fun _ _ hs' hchanges _ => ⟨hs', hchanges⟩⟩

theorem follows_join {id : Nat} {child : S.Job} (hs : D.invariant s)
    (hpermits : D.permits job h s (.join id child)) :
    (join id child).Follows D job (fun _ finished s' => D.invariant s' ∧ D.changes s s' ∧
      D.assumes job h s' (.join id child) finished) h s :=
  ⟨hs, hpermits, fun _ _ hs' hchanges hfinished => ⟨hs', hchanges, hfinished⟩⟩

/-- What a contract without a say on the state tells of a coroutine may be added,
if the discipline assumes what the contract does. -/
theorem Follows.and_sat {C : Contract S} {c : Coroutine S α} {frame : S.Frame}
    {post' : List (Event S) → S.Frame → α → S.State → Prop} (hc : c.Follows D job post h s)
    (hsat : c.Sat C post' h frame s) (hholds : ∀ frame s, C.holds frame s)
    (hadmits : ∀ h frame s s' w reply, D.permits job h s w → D.assumes job h s' w reply →
      C.admits h frame s' w reply) :
    c.Follows D job (fun h value s => post h value s ∧ ∃ frame, post' h frame value s) h s := by
  induction c generalizing h frame s with
  | done value => exact ⟨hc, frame, hsat⟩
  | diverge => trivial
  | raise => exact hc
  | get next ih => exact ih s hc hsat
  | set s' next ih => exact ⟨hc.1, ih hc.2 hsat.2⟩
  | publish f next ih => exact ih hc hsat
  | await w next ih =>
      refine ⟨hc.1, hc.2.1, ?_⟩
      intro s' reply hs' hchanges hreply
      exact ih reply (hc.2.2 s' reply hs' hchanges hreply)
        (hsat.2.2 s' reply (hholds frame s') (hadmits h frame s s' w reply hc.2.1 hreply))

theorem Follows.and_guarantees {C : Contract S} {K : List (Event S) → S.Frame → S.State → Prop}
    {c : Coroutine S α} {frame : S.Frame} {Q : List (Event S) → α → Prop}
    (hc : c.Follows D job post h s) (hguarantees : Guarantees C K frame c Q)
    (hholds : ∀ frame s, C.holds frame s)
    (hadmits : ∀ h frame s s' w reply, D.permits job h s w → D.assumes job h s' w reply →
      C.admits h frame s' w reply) :
    c.Follows D job (fun h' value s => post h' value s ∧ ∃ new, h' = h ++ new ∧ Q new value)
      h s := by
  refine (hc.and_sat (hguarantees.sat (hholds frame s)) hholds hadmits).mono ?_
  rintro h' value s' ⟨hpost, frame', -, new, hnew, -, -, hvalue⟩
  exact ⟨hpost, new, hnew, hvalue⟩

theorem Follows.advance {c c' : Coroutine S α} {s' : S.State} {frame frame' : S.Frame}
    (hc : c.Follows D job post h s) (hrun : c.advance s frame = some (s', frame', c')) :
    D.changes s s' ∧ (((∃ value, c' = .done value ∧ post h value s') ∨
        c' = .raise ∧ D.invariant s') ∨
      ∃ w next, c' = .await w next ∧ D.invariant s' ∧ D.permits job h s' w ∧
        ∀ s'' reply, D.invariant s'' → D.changes s' s'' → D.assumes job h s'' w reply →
          (next reply).Follows D job post (h ++ [.of w reply]) s'') := by
  induction c generalizing s frame with
  | done value =>
      cases hrun
      exact ⟨D.changes_refl _, Or.inl (Or.inl ⟨value, rfl, hc⟩)⟩
  | diverge => cases hrun
  | raise =>
      cases hrun
      exact ⟨D.changes_refl _, Or.inl (Or.inr ⟨rfl, hc⟩)⟩
  | get next ih => exact ih s hc hrun
  | set t next ih =>
      obtain ⟨hchanges, hstops⟩ := ih hc.2 hrun
      exact ⟨D.changes_trans hc.1 hchanges, hstops⟩
  | publish f next ih => exact ih hc hrun
  | await w next ih =>
      cases hrun
      exact ⟨D.changes_refl _, Or.inr ⟨w, next, rfl, hc⟩⟩

end Coroutine

/-! ## Routines that ask only certain questions -/

/-- Whatever it is told and whatever state it finds then, the coroutine asks only
questions in `W`, and its sections make only changes in `R`. -/
def Coroutine.Within (W : Wait S → Prop) (R : S.State → S.State → Prop) :
    Coroutine S α → S.State → Prop
  | .done _, _ | .diverge, _ | .raise, _ => True
  | .get next, s => (next s).Within W R s
  | .set s' next, s => R s s' ∧ next.Within W R s'
  | .publish _ next, s => next.Within W R s
  | .await w next, _ => W w ∧ ∀ s' reply, (next reply).Within W R s'

namespace Coroutine

variable {W : Wait S → Prop} {R : S.State → S.State → Prop} {s : S.State}

theorem within_pure (value : α) : (pure value : Coroutine S α).Within W R s := trivial

theorem within_diverge : (.diverge : Coroutine S α).Within W R s := trivial

theorem within_raise : (.raise : Coroutine S α).Within W R s := trivial

theorem Within.bind {c : Coroutine S α} {k : α → Coroutine S β} (hc : c.Within W R s)
    (hk : ∀ value s, (k value).Within W R s) : (c >>= k).Within W R s := by
  change (c.bind k).Within W R s
  induction c generalizing s with
  | done value => exact hk value s
  | diverge => trivial
  | raise => trivial
  | get next ih => exact ih s hc
  | set s' next ih => exact ⟨hc.1, ih hc.2⟩
  | publish f next ih => exact ih hc
  | await w next ih => exact ⟨hc.1, fun s' reply => ih reply (hc.2 s' reply)⟩

theorem within_atomically {f : S.State → Option (α × S.State)}
    (hf : ∀ value s', f s = some (value, s') → R s s') : (atomically f).Within W R s := by
  simp only [atomically, Within]
  cases hfs : f s with
  | none => trivial
  | some result => exact ⟨hf result.1 result.2 hfs, trivial⟩

theorem within_ask {e : S.External} (he : W (.external e)) : (ask e).Within W R s :=
  ⟨he, fun _ _ => trivial⟩

theorem within_spawn {job : S.Job} (hjob : W (.spawn job)) : (spawn job).Within W R s :=
  ⟨hjob, fun _ _ => trivial⟩

theorem within_join {id : Nat} {job : S.Job} (hjoin : W (.join id job)) :
    (join id job).Within W R s :=
  ⟨hjoin, fun _ _ => trivial⟩

theorem within_amend (f : S.Frame → S.Frame) : (amend f).Within W R s := trivial

theorem within_reveal (frame : S.Frame) : (reveal frame).Within W R s := within_amend _

theorem within_ite {p : Prop} [Decidable p] {c c' : Coroutine S α} (hc : c.Within W R s)
    (hc' : c'.Within W R s) : (if p then c else c').Within W R s := by
  split
  · exact hc
  · exact hc'

/-- A routine that asks only permitted questions leaves alone what no answer to
them changes. -/
theorem Within.follows {D : Discipline S} {job : S.Job} {J : List (Event S) → Prop}
    {c : Coroutine S α} {h : List (Event S)} (hc : c.Within W R s)
    (hsection : ∀ s s', R s s' → D.changes s s' ∧ (D.invariant s → D.invariant s'))
    (hpermits : ∀ h s w, J h → W w → D.permits job h s w)
    (hkeeps : ∀ h s w reply, J h → W w → D.assumes job h s w reply → J (h ++ [.of w reply]))
    (hJ : J h) (hs : D.invariant s) :
    c.Follows D job (fun h _ s => J h ∧ D.invariant s) h s := by
  induction c generalizing h s with
  | done value => exact ⟨hJ, hs⟩
  | diverge => trivial
  | raise => exact hs
  | get next ih => exact ih s hc hJ hs
  | set s' next ih =>
      obtain ⟨hchanges, hinvariant⟩ := hsection s s' hc.1
      exact ⟨hchanges, ih hc.2 hJ (hinvariant hs)⟩
  | publish f next ih => exact ih hc hJ hs
  | await w next ih =>
      refine ⟨hs, hpermits h s w hJ hc.1, ?_⟩
      intro s' reply hs' _ hreply
      exact ih reply (hc.2 s' reply) (hkeeps h s' w reply hJ hc.1 hreply) hs'

end Coroutine

/-! ## A system of tasks -/

def Task.FollowsFrom (D : Discipline S) (task : Task S) (s : S.State) : Prop :=
  match task.rest with
  | .done result => D.ends task.job task.history result s
  | .raise => True
  | .await w next => D.permits task.job task.history s w ∧
      ∀ s' reply, D.invariant s' → D.changes s s' → D.assumes task.job task.history s' w reply →
        (next reply).Follows D task.job (D.Ended task.job) (task.history ++ [.of w reply]) s'
  | rest => ∀ s', D.invariant s' → D.changes s s' →
      rest.Follows D task.job (D.Ended task.job) task.history s'

def Task.Follows (D : Discipline S) (task : Task S) (s : S.State) : Prop :=
  ∃ s₀, D.changes s₀ s ∧ task.FollowsFrom D s₀

theorem Task.Follows.changed {D : Discipline S} {task : Task S} {s s' : S.State}
    (h : task.Follows D s) (hchanges : D.changes s s') : task.Follows D s' := by
  obtain ⟨s₀, hs₀, hfrom⟩ := h
  exact ⟨s₀, D.changes_trans hs₀ hchanges, hfrom⟩

def Permitted (D : Discipline S) (job : S.Job) (history : List (Event S)) : Prop :=
  ∀ front event back, history = front ++ event :: back → ∃ s, D.permits job front s event.wait

structure System.Follows (D : Discipline S) (sys : System S) : Prop where
  shared : D.invariant sys.shared
  tasks : ∀ task ∈ sys.tasks, task.Follows D sys.shared ∧ Permitted D task.job task.history

theorem permitted_nil (D : Discipline S) (job : S.Job) : Permitted D job [] := by
  intro front event back h
  simp at h

theorem Permitted.concat {D : Discipline S} {job : S.Job} {history : List (Event S)} {w : Wait S}
    {s : S.State} (h : Permitted D job history) (hw : D.permits job history s w)
    (reply : w.Reply) : Permitted D job (history ++ [.of w reply]) := by
  intro front event back hsplit
  rcases List.eq_nil_or_concat back with rfl | ⟨init, last, rfl⟩
  · obtain ⟨rfl, hlast⟩ := List.append_inj' hsplit rfl
    cases hlast
    rw [Event.wait_of]
    exact ⟨s, hw⟩
  · rw [List.concat_eq_append, ← List.cons_append, ← List.append_assoc] at hsplit
    exact h front event init (List.append_inj' hsplit rfl).1

theorem Permitted.front {D : Discipline S} {job : S.Job} {front back : List (Event S)}
    (h : Permitted D job (front ++ back)) : Permitted D job front := by
  intro front' event back' hsplit
  refine h front' event (back' ++ back) ?_
  rw [hsplit, List.append_assoc, List.cons_append]

def Program.Enters (P : Program S) (D : Discipline S) (allowed : S.Job → S.State → Prop) : Prop :=
  ∀ job s, allowed job s → D.invariant s → (P.entry job).Follows D job (D.Ended job) [] s

namespace System.Follows

variable {D : Discipline S} {P : Program S} {sys sys' : System S}
  {allowed : S.Job → S.State → Prop}

theorem initial {s : S.State} (hs : D.invariant s) : (System.initial s).Follows D :=
  ⟨hs, fun _ htask => nomatch htask⟩

theorem newTask (hentry : P.Enters D allowed)
    (hstable : ∀ job s s', D.changes s s' → allowed job s → allowed job s') {job : S.Job}
    {s : S.State} (hjob : allowed job s) :
    (P.newTask job).Follows D s ∧ Permitted D job (P.newTask job).history :=
  ⟨⟨s, D.changes_refl s, fun s' hs' hchanges => hentry job s' (hstable job s s' hchanges hjob) hs'⟩,
    permitted_nil D job⟩

theorem resumed (h : sys.Follows D) {reply : (e : S.External) → S.Answer e} {id : Nat}
    {task task' : Task S} {spawned : List (Task S)}
    (hresumes : P.Resumes reply sys sys' id task task' spawned)
    (hassumes : ∀ w next r, task.rest = .await w next → sys.Gives reply w r →
      D.assumes task.job task.history sys.shared w r) :
    D.invariant sys'.shared ∧ D.changes sys.shared sys'.shared ∧ task'.Follows D sys'.shared ∧
      Permitted D task'.job task'.history := by
  have hmem := List.mem_of_getElem? hresumes.found
  obtain ⟨⟨s₀, hs₀, hfollows⟩, hpermitted⟩ := h.tasks task hmem
  have hjudged : ∃ rest : Coroutine S S.Result, Permitted D task.job task'.history ∧
      rest.Follows D task.job (D.Ended task.job) task'.history sys.shared ∧
      rest.advance sys.shared task.frame = some (sys'.shared, task'.frame, task'.rest) := by
    rcases hresumes.wakes with ⟨w, next, r, hrest, hgives, hhistory, -, hrun⟩ |
      ⟨hawait, hnone, hhistory, -, hrun⟩
    · unfold Task.FollowsFrom at hfollows
      rw [hrest] at hfollows
      rw [hhistory]
      refine ⟨next r, hpermitted.concat hfollows.1 r, ?_, hrun⟩
      exact hfollows.2 sys.shared r h.shared hs₀ (hassumes w next r hrest hgives)
    · rw [hhistory]
      refine ⟨task.rest, hpermitted, ?_, hrun⟩
      unfold Task.FollowsFrom at hfollows
      split at hfollows
      · rename_i result hrest
        simp [Task.result?, hrest] at hnone
      · rename_i hrest
        simp [Task.result?, hrest] at hnone
      · rename_i w next hrest
        exact absurd hrest (hawait w next)
      · exact hfollows sys.shared h.shared hs₀
  obtain ⟨rest, hpermitted', hrest, hrun⟩ := hjudged
  rw [← hresumes.job] at hpermitted' hrest
  obtain ⟨hchanges, hstops⟩ := hrest.advance hrun
  rcases hstops with (⟨result, hdone, hinvariant, hends⟩ | ⟨hraise, hinvariant⟩) |
    ⟨w, next, hwait, hinvariant, hpermits, hnext⟩
  · refine ⟨hinvariant, hchanges, ⟨sys'.shared, D.changes_refl _, ?_⟩, hpermitted'⟩
    unfold Task.FollowsFrom
    rw [hdone]
    exact hends
  · refine ⟨hinvariant, hchanges, ⟨sys'.shared, D.changes_refl _, ?_⟩, hpermitted'⟩
    unfold Task.FollowsFrom
    rw [hraise]
    trivial
  · refine ⟨hinvariant, hchanges, ⟨sys'.shared, D.changes_refl _, ?_⟩, hpermitted'⟩
    unfold Task.FollowsFrom
    rw [hwait]
    exact ⟨hpermits, hnext⟩

/-- A disciplined system stays disciplined if the started jobs are allowed and
the replies as assumed. -/
theorem step (h : sys.Follows D) (hentry : P.Enters D allowed)
    (hstable : ∀ job s s', D.changes s s' → allowed job s → allowed job s')
    (hspawns : ∀ job h s child, D.permits job h s (.spawn child) → allowed child s)
    {action : Action S} (hstart : ∀ job, action = .start job → allowed job sys.shared)
    (hassumes : ∀ id reply task w next r, action = .resume id reply →
      sys.tasks[id]? = some task → task.rest = .await w next → sys.Gives reply w r →
        D.assumes task.job task.history sys.shared w r)
    (hstep : P.step sys action = some sys') :
    sys'.Follows D ∧ D.changes sys.shared sys'.shared := by
  rcases Program.step_cases hstep with ⟨job, rfl, rfl⟩ |
    ⟨id, reply, task, task', spawned, rfl, hresumes⟩
  · refine ⟨⟨h.shared, fun other hother => ?_⟩, D.changes_refl _⟩
    rcases List.mem_append.mp hother with hold | hnew
    · exact h.tasks other hold
    · rw [List.mem_singleton.mp hnew]
      exact newTask hentry hstable (hstart job rfl)
  · obtain ⟨hinvariant, hchanges, hself⟩ := h.resumed hresumes
      fun w next r => hassumes id reply task w next r rfl hresumes.found
    have hothers : ∀ other ∈ sys.tasks,
        other.Follows D sys'.shared ∧ Permitted D other.job other.history := by
      intro other hother
      exact ⟨(h.tasks other hother).1.changed hchanges, (h.tasks other hother).2⟩
    refine ⟨⟨hinvariant, hresumes.forall_tasks hself hothers fun job next hrest => ?_⟩, hchanges⟩
    obtain ⟨⟨s₀, hs₀, hfollows⟩, -⟩ := h.tasks task (List.mem_of_getElem? hresumes.found)
    unfold Task.FollowsFrom at hfollows
    rw [hrest] at hfollows
    exact newTask hentry hstable
      (hstable job _ _ (D.changes_trans hs₀ hchanges) (hspawns _ _ _ job hfollows.1))

theorem ended (h : sys.Follows D) {task : Task S} (htask : task ∈ sys.tasks) {result : S.Result}
    (hresult : task.result? = some result) : D.ends task.job task.history result sys.shared := by
  obtain ⟨⟨s₀, hs₀, hfollows⟩, -⟩ := h.tasks task htask
  unfold Task.FollowsFrom at hfollows
  rcases Task.rest_of_result? hresult with hrest | ⟨-, rfl⟩
  · rw [hrest] at hfollows
    exact D.ends_stable hs₀ hfollows
  · exact D.ends_thrown _ _ _

theorem joined (h : sys.Follows D) {reply : (e : S.External) → S.Answer e} {id : Nat}
    {job : S.Job} {finished : Finished S}
    (hgives : sys.Gives reply (.join id job) finished) :
    ∃ history, finished.exchanges = exchangesOf history ∧
      D.ends job history finished.result sys.shared := by
  obtain ⟨child, hchild, rfl, hresult, hexchanges⟩ := System.ended_of_finished hgives
  exact ⟨child.history, hexchanges.symm, h.ended (List.mem_of_getElem? hchild) hresult⟩

end System.Follows

theorem Event.exists_of_wait (event : Event S) : ∃ reply, event = Event.of event.wait reply := by
  cases event with
  | external exchange => exact ⟨exchange.2, rfl⟩
  | spawned id job => exact ⟨id, rfl⟩
  | joined id job finished => exact ⟨finished, rfl⟩

theorem Task.Follows.permits {D : Discipline S} {task : Task S} {s : S.State}
    (h : task.Follows D s) (hpermitted : Permitted D task.job task.history) {w : Wait S}
    (hw : w ∈ task.asked) : ∃ history s, D.permits task.job history s w := by
  unfold Task.asked at hw
  rcases List.mem_append.mp hw with hearlier | hopen
  · obtain ⟨event, hevent, rfl⟩ := List.mem_map.mp hearlier
    obtain ⟨front, back, hsplit⟩ := List.append_of_mem hevent
    exact ⟨front, hpermitted front event back hsplit⟩
  · obtain ⟨s₀, -, hfollows⟩ := h
    unfold Task.FollowsFrom at hfollows
    cases hrest : task.rest with
    | await w' next =>
        rw [hrest] at hfollows hopen
        cases List.mem_singleton.mp hopen
        exact ⟨task.history, s₀, hfollows.1⟩
    | _ =>
        rw [hrest] at hopen
        cases hopen

theorem Task.Follows.asked {D : Discipline S} {task : Task S} {s : S.State}
    (h : task.Follows D s) (hpermitted : Permitted D task.job task.history)
    {front : List (Wait S)} {w : Wait S} (hasked : task.asked = front ++ [w]) :
    ∃ history, history.map Event.wait = front ∧ (∃ s, D.permits task.job history s w) ∧
      (task.history = history ∨ ∃ reply, task.history = history ++ [.of w reply]) := by
  unfold Task.asked at hasked
  obtain ⟨s₀, -, hfollows⟩ := h
  unfold Task.FollowsFrom at hfollows
  have hended : task.rest.pending = [] → ∃ history, history.map Event.wait = front ∧
      (∃ s, D.permits task.job history s w) ∧
        (task.history = history ∨ ∃ reply, task.history = history ++ [.of w reply]) := by
    intro hnone
    rw [hnone, List.append_nil] at hasked
    obtain ⟨history, last, heq, hfront, hlast⟩ := List.map_eq_append_iff.mp hasked
    obtain ⟨event, rfl, rfl⟩ := List.map_eq_singleton_iff.mp hlast
    obtain ⟨reply, hreply⟩ := event.exists_of_wait
    refine ⟨history, hfront, hpermitted history event [] heq, Or.inr ⟨reply, ?_⟩⟩
    rw [← hreply, heq]
  cases hrest : task.rest with
  | await w' next =>
      rw [hrest] at hfollows hasked
      obtain ⟨hfront, hw⟩ := List.append_inj' hasked rfl
      cases hw
      exact ⟨task.history, hfront, ⟨s₀, hfollows.1⟩, Or.inl rfl⟩
  | _ => exact hended (by rw [hrest]; rfl)

end ElioP2P.Library
