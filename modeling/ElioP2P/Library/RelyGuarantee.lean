import ElioP2P.Library.Steps

/-!
# Rely-guarantee reasoning for cooperative tasks

`Sat` is a judgement about one coroutine.  A contract names what holds of the
shared state at every suspension, which changes of it are made, and what a
coroutine may assume of its replies; `System.Sound` carries such judgements
through the steps of a whole system of tasks.
-/

namespace ElioP2P.Library

variable {S : Signature} {α β : Type}

/-! ## Judgements about one coroutine -/

/-- What the tasks of a system promise one another. -/
structure Contract (S : Signature) where
  /-- Holds of a suspended task's frame and the shared state. -/
  holds : S.Frame → S.State → Prop
  /-- What a task may assume of a reply, given its history and the state in
  which it is resumed. -/
  admits : List (Event S) → S.Frame → S.State → (w : Wait S) → w.Reply → Prop
  /-- The changes that a task may make, given its history. -/
  changes : List (Event S) → S.State → S.State → Prop
  /-- The jobs that may be started. -/
  allowed : S.Job → Prop
  /-- Holds where an exception escapes. -/
  throws : List (Event S) → S.Frame → S.State → Prop

def Wait.Legal (C : Contract S) : Wait S → Prop
  | .spawn job => C.allowed job
  | .external _ | .join _ _ => True

def Coroutine.Sat (C : Contract S)
    (post : List (Event S) → S.Frame → α → S.State → Prop) :
    Coroutine S α → List (Event S) → S.Frame → S.State → Prop
  | .done value, h, frame, s => post h frame value s
  | .diverge, _, _, _ => True
  | .raise, h, frame, s => C.throws h frame s
  | .get next, h, frame, s => (next s).Sat C post h frame s
  | .set s' next, h, frame, s => C.changes h s s' ∧ next.Sat C post h frame s'
  | .publish f next, h, frame, s => next.Sat C post h (f frame) s
  | .await w next, h, frame, s =>
      w.Legal C ∧ C.holds frame s ∧
        ∀ s' reply, C.holds frame s' → C.admits h frame s' w reply →
          (next reply).Sat C post (h ++ [.of w reply]) frame s'

namespace Coroutine

variable {C : Contract S} {post post' : List (Event S) → S.Frame → α → S.State → Prop}
  {h : List (Event S)} {frame : S.Frame} {s : S.State}

theorem Sat.seq {c : Coroutine S α} {k : α → Coroutine S β}
    {post' : List (Event S) → S.Frame → β → S.State → Prop}
    (hc : c.Sat C post h frame s)
    (hk : ∀ h frame value s, post h frame value s → (k value).Sat C post' h frame s) :
    (c >>= k).Sat C post' h frame s := by
  change (c.bind k).Sat C post' h frame s
  induction c generalizing h frame s with
  | done value => exact hk _ _ _ _ hc
  | diverge => trivial
  | raise => exact hc
  | get next ih => exact ih s hc
  | set s' next ih => exact ⟨hc.1, ih hc.2⟩
  | publish f next ih => exact ih hc
  | await w next ih =>
      obtain ⟨hlegal, hholds, hnext⟩ := hc
      exact ⟨hlegal, hholds, fun s' reply hs' hreply => ih reply (hnext s' reply hs' hreply)⟩

theorem Sat.mono {c : Coroutine S α} (hc : c.Sat C post h frame s)
    (hpost : ∀ h frame value s, post h frame value s → post' h frame value s) :
    c.Sat C post' h frame s := by
  rw [← bind_done c]
  exact hc.seq hpost

/-- The first part has been judged by what the second one needs. -/
theorem Sat.bind {c : Coroutine S α} {k : α → Coroutine S β}
    {post : List (Event S) → S.Frame → β → S.State → Prop}
    (hc : c.Sat C (fun h frame value s => (k value).Sat C post h frame s) h frame s) :
    (c >>= k).Sat C post h frame s :=
  hc.seq fun _ _ _ _ hk => hk

theorem sat_trivial (hholds : ∀ frame s, C.holds frame s)
    (hchanges : ∀ h s s', C.changes h s s')
    (hallowed : ∀ job, C.allowed job) (hthrows : ∀ h frame s, C.throws h frame s)
    (hpost : ∀ h frame value s, post h frame value s) (c : Coroutine S α) :
    c.Sat C post h frame s := by
  induction c generalizing h frame s with
  | done value => exact hpost _ _ _ _
  | diverge => trivial
  | raise => exact hthrows _ _ _
  | get next ih => exact ih s
  | set s' next ih => exact ⟨hchanges h s s', ih⟩
  | publish f next ih => exact ih
  | await w next ih =>
      refine ⟨?_, hholds frame s, fun s' reply _ _ => ih reply⟩
      cases w with
      | spawn job => exact hallowed job
      | external e => trivial
      | join id job => trivial

theorem sat_atomically {f : S.State → Option (α × S.State)}
    (hchanges : ∀ value s', f s = some (value, s') → C.changes h s s')
    (hf : ∀ value s', f s = some (value, s') → post h frame value s') :
    (atomically f).Sat C post h frame s := by
  simp only [atomically, Sat]
  cases hfs : f s with
  | none => trivial
  | some result => exact ⟨hchanges result.1 result.2 hfs, hf result.1 result.2 hfs⟩

theorem sat_ask {e : S.External} {post : List (Event S) → S.Frame → S.Answer e → S.State → Prop}
    (hs : C.holds frame s)
    (hpost : ∀ answer s', C.holds frame s' → C.admits h frame s' (.external e) answer →
      post (h ++ [.external ⟨e, answer⟩]) frame answer s') :
    (ask e).Sat C post h frame s :=
  ⟨trivial, hs, fun s' answer hs' hanswer => hpost answer s' hs' hanswer⟩

theorem Sat.advance {c c' : Coroutine S α} {s' : S.State} {frame' : S.Frame}
    (hc : c.Sat C post h frame s) (hrun : c.advance s frame = some (s', frame', c')) :
    ((∃ value, c' = .done value ∧ post h frame' value s') ∨
      c' = .raise ∧ C.throws h frame' s') ∨
    ∃ w next, c' = .await w next ∧ w.Legal C ∧ C.holds frame' s' ∧
      ∀ s'' reply, C.holds frame' s'' → C.admits h frame' s'' w reply →
        (next reply).Sat C post (h ++ [.of w reply]) frame' s'' := by
  induction c generalizing s frame with
  | done value =>
      cases hrun
      exact Or.inl (Or.inl ⟨value, rfl, hc⟩)
  | diverge => cases hrun
  | raise =>
      cases hrun
      exact Or.inl (Or.inr ⟨rfl, hc⟩)
  | get next ih => exact ih s hc hrun
  | set s' next ih => exact ih hc.2 hrun
  | publish f next ih => exact ih hc hrun
  | await w next ih =>
      cases hrun
      exact Or.inr ⟨w, next, rfl, hc⟩

theorem Sat.changes_advance {c c' : Coroutine S α} {s' : S.State} {frame' : S.Frame}
    (hrefl : ∀ h s, C.changes h s s)
    (htrans : ∀ h s t u, C.changes h s t → C.changes h t u → C.changes h s u)
    (hc : c.Sat C post h frame s) (hrun : c.advance s frame = some (s', frame', c')) :
    C.changes h s s' := by
  induction c generalizing s frame with
  | done value =>
      cases hrun
      exact hrefl _ _
  | diverge => cases hrun
  | raise =>
      cases hrun
      exact hrefl _ _
  | get next ih => exact ih s hc hrun
  | set t next ih => exact htrans _ _ _ _ hc.1 (ih hc.2 hrun)
  | publish f next ih => exact ih hc hrun
  | await w next ih =>
      cases hrun
      exact hrefl _ _

end Coroutine

/-! ## Coroutines that keep their frame

A library routine shows no frame of its own and touches little of the shared
state.  What is said about it is which events it adds and what it returns, from
any state in which the contract holds.  `K` is something every reply it gets
lets it know about its history and the state, so it is known from the first
suspension on. -/

namespace Coroutine

section Guarantees

variable {C : Contract S} {K : List (Event S) → S.Frame → S.State → Prop} {frame : S.Frame}
  {Q Q' : List (Event S) → α → Prop}

/-- The contract holds, and `K` if something made it known. -/
def Live (C : Contract S) (K : List (Event S) → S.Frame → S.State → Prop) (frame : S.Frame)
    (known : Prop) (h : List (Event S)) (s : S.State) : Prop :=
  C.holds frame s ∧ (known → K h frame s)

/-- From every state, the coroutine adds events and returns a value that satisfy
`Q` together. -/
def Guarantees (C : Contract S) (K : List (Event S) → S.Frame → S.State → Prop)
    (frame : S.Frame) (c : Coroutine S α) (Q : List (Event S) → α → Prop) : Prop :=
  ∀ known h s, Live C K frame known h s →
    c.Sat C (fun h' frame' value s' => frame' = frame ∧
      ∃ new, h' = h ++ new ∧ Live C K frame (known ∨ new ≠ []) h' s' ∧ Q new value) h frame s

theorem Guarantees.sat {c : Coroutine S α} {h : List (Event S)} {s : S.State}
    (hc : Guarantees C K frame c Q) (hs : C.holds frame s) :
    c.Sat C (fun h' frame' value s' => frame' = frame ∧ ∃ new, h' = h ++ new ∧
      C.holds frame s' ∧ (new ≠ [] → K h' frame s') ∧ Q new value) h frame s := by
  refine (hc False h s ⟨hs, nofun⟩).mono ?_
  rintro h' frame' value s' ⟨hframe, new, hnew, hlive, hvalue⟩
  exact ⟨hframe, new, hnew, hlive.1, fun hne => hlive.2 (Or.inr hne), hvalue⟩

theorem guarantees_pure {value : α} (hQ : Q [] value) :
    Guarantees C K frame (pure value : Coroutine S α) Q := by
  intro known h s hlive
  exact ⟨rfl, [], by simp, ⟨hlive.1, fun hknown => hlive.2 (by simpa using hknown)⟩, hQ⟩

theorem guarantees_diverge : Guarantees C K frame (.diverge : Coroutine S α) Q :=
  fun _ _ _ _ => trivial

theorem guarantees_raise (hthrows : ∀ h s, C.holds frame s → C.throws h frame s) :
    Guarantees C K frame (.raise : Coroutine S α) Q :=
  fun _ h s hlive => hthrows h s hlive.1

theorem Guarantees.mono {c : Coroutine S α} (hc : Guarantees C K frame c Q)
    (hQ : ∀ new value, Q new value → Q' new value) : Guarantees C K frame c Q' := by
  intro known h s hlive
  refine (hc known h s hlive).mono ?_
  rintro h' frame' value s' ⟨rfl, new, rfl, hlive', hvalue⟩
  exact ⟨rfl, new, rfl, hlive', hQ new value hvalue⟩

theorem Guarantees.bind {c : Coroutine S α} {k : α → Coroutine S β}
    {R : List (Event S) → β → Prop} (hc : Guarantees C K frame c Q)
    (hk : ∀ new value, Q new value →
      Guarantees C K frame (k value) fun new' value' => R (new ++ new') value') :
    Guarantees C K frame (c >>= k) R := by
  intro known h s hlive
  refine (hc known h s hlive).seq ?_
  rintro h' frame' value s' ⟨rfl, new, rfl, hlive', hvalue⟩
  refine (hk new value hvalue _ _ s' hlive').mono ?_
  rintro h'' frame'' value' s'' ⟨rfl, new', rfl, hlive'', hvalue'⟩
  refine ⟨rfl, new ++ new', by simp, ⟨hlive''.1, fun hknown => hlive''.2 ?_⟩, hvalue'⟩
  simp only [ne_eq, List.append_eq_nil_iff, not_and_or] at hknown ⊢
  tauto

theorem guarantees_atomically {f : S.State → Option (α × S.State)}
    (hchanges : ∀ h s value s', f s = some (value, s') → C.changes h s s')
    (hholds : ∀ s value s', f s = some (value, s') → C.holds frame s → C.holds frame s')
    (hK : ∀ h s value s', f s = some (value, s') → K h frame s → K h frame s')
    (hQ : ∀ s value s', f s = some (value, s') → Q [] value) :
    Guarantees C K frame (atomically f) Q := by
  intro known h s hlive
  refine sat_atomically (hchanges h s) fun value s' hf =>
    ⟨rfl, [], by simp, ⟨hholds s value s' hf hlive.1, ?_⟩, hQ s value s' hf⟩
  intro hknown
  exact hK h s value s' hf (hlive.2 (by simpa using hknown))

theorem guarantees_await {w : Wait S} {next : w.Reply → Coroutine S α}
    (hlegal : w.Legal C)
    (hK : ∀ h s reply, C.admits h frame s w reply → K (h ++ [.of w reply]) frame s)
    (hnext : ∀ reply, (∃ h s, C.admits h frame s w reply) →
      Guarantees C K frame (next reply) fun new value => Q (.of w reply :: new) value) :
    Guarantees C K frame (.await w next) Q := by
  intro known h s hlive
  refine ⟨hlegal, hlive.1, fun s' reply hs' hreply => ?_⟩
  refine (hnext reply ⟨h, s', hreply⟩ True _ s' ⟨hs', fun _ => hK h s' reply hreply⟩).mono ?_
  rintro h' frame' value s'' ⟨rfl, new, rfl, hlive', hvalue⟩
  exact ⟨rfl, .of w reply :: new, by simp, ⟨hlive'.1, fun _ => hlive'.2 (Or.inl trivial)⟩, hvalue⟩

end Guarantees

end Coroutine

/-! ## Judgements about a system -/

/-- A contract whose assumptions depend on the job, with what each job ends in
and what is learnt by joining it. -/
structure Spec (S : Signature) where
  holds : S.Frame → S.State → Prop
  admits : S.Job → List (Event S) → S.Frame → S.State → (w : Wait S) → w.Reply → Prop
  changes : List (Event S) → S.State → S.State → Prop
  allowed : S.Job → Prop
  post : S.Job → List (Event S) → S.Frame → S.Result → S.State → Prop
  joined : S.Job → Finished S → Prop

def Spec.contract (spec : Spec S) (job : S.Job) : Contract S where
  holds := spec.holds
  admits := spec.admits job
  changes := spec.changes
  allowed := spec.allowed
  throws h frame s := spec.post job h frame S.thrown s

structure Spec.Valid (spec : Spec S) (P : Program S) : Prop where
  entry : ∀ job s, spec.allowed job → spec.holds P.blank s →
    (P.entry job).Sat (spec.contract job) (spec.post job) [] P.blank s
  changes_refl : ∀ h s, spec.changes h s s
  changes_trans : ∀ h s t u, spec.changes h s t → spec.changes h t u → spec.changes h s u
  shared_of_holds : ∀ frame s, spec.holds frame s → spec.holds P.blank s
  shared_of_post : ∀ job h frame result s, spec.post job h frame result s → spec.holds P.blank s
  joined_of_post : ∀ job h frame result s, spec.post job h frame result s →
    spec.joined job ⟨exchangesOf h, result⟩

def Task.Ready (spec : Spec S) (task : Task S) : Prop :=
  match task.rest with
  | .done _ | .raise => True
  | .await w next =>
      w.Legal (spec.contract task.job) ∧
        ∀ s reply, spec.holds task.frame s →
          spec.admits task.job task.history task.frame s w reply →
            (next reply).Sat (spec.contract task.job) (spec.post task.job)
              (task.history ++ [.of w reply]) task.frame s
  | rest =>
      ∀ s, spec.holds task.frame s →
        rest.Sat (spec.contract task.job) (spec.post task.job) task.history task.frame s

structure System.Sound (spec : Spec S) (P : Program S) (sys : System S) : Prop where
  shared : spec.holds P.blank sys.shared
  ready : ∀ task ∈ sys.tasks, task.Ready spec
  holds : ∀ task ∈ sys.tasks, task.result? = none → spec.holds task.frame sys.shared
  finished : ∀ task ∈ sys.tasks, ∀ result, task.result? = some result →
    spec.joined task.job ⟨exchangesOf task.history, result⟩
  joins : ∀ task ∈ sys.tasks, ∀ id job finished, .joined id job finished ∈ task.history →
    sys.Ended id job finished
  fresh : ∀ task ∈ sys.tasks, task.result? = none → (∀ w next, task.rest ≠ .await w next) →
    task.history = []

/-- The replies a step can give: the outside world's, a new task's number, or
what joining a task tells. -/
def System.Replies (spec : Spec S) (sys : System S) (reply : (e : S.External) → S.Answer e) :
    (w : Wait S) → w.Reply → Prop
  | .external e, answer => answer = reply e
  | .spawn _, id => id = sys.tasks.length
  | .join _ job, finished => spec.joined job finished

/-- The history of a task that is woken up. -/
def Task.Wakes (task : Task S) (h : List (Event S)) : Prop :=
  (∃ w next r, task.rest = .await w next ∧ h = task.history ++ [.of w r]) ∨
    (∀ w next, task.rest ≠ .await w next) ∧ h = []

/-- What a step has to meet: started jobs are allowed, replies are admissible,
and after what the resumed task may change the frames of the other tasks still
hold. -/
structure StepMeets (spec : Spec S) (P : Program S) (sys : System S) (action : Action S)
    (s' : S.State) : Prop where
  start : ∀ job, action = .start job → spec.allowed job
  admits : ∀ id reply task w next, action = .resume id reply → sys.tasks[id]? = some task →
    task.rest = .await w next → spec.holds task.frame sys.shared →
      ∀ r, sys.Replies spec reply w r →
        spec.admits task.job task.history task.frame sys.shared w r
  stable : ∀ id reply resumed h other task, action = .resume id reply →
    sys.tasks[id]? = some resumed → resumed.Wakes h → spec.changes h sys.shared s' →
      other ≠ id → sys.tasks[other]? = some task → task.result? = none →
        spec.holds task.frame sys.shared → spec.holds P.blank s' → spec.holds task.frame s'

namespace System.Sound

variable {spec : Spec S} {P : Program S} {sys sys' : System S}

theorem initial {s : S.State} (h : spec.holds P.blank s) : (System.initial s).Sound spec P where
  shared := h
  ready := by simp [System.initial]
  holds := by simp [System.initial]
  finished := by simp [System.initial]
  joins := by simp [System.initial]
  fresh := by simp [System.initial]

theorem replies (hsys : sys.Sound spec P) {reply : (e : S.External) → S.Answer e} {w : Wait S}
    {r : w.Reply} (hgives : sys.Gives reply w r) : sys.Replies spec reply w r := by
  cases w with
  | external e => exact hgives
  | spawn job => exact hgives
  | join id job =>
      obtain ⟨child, hchild, rfl, hresult, hexchanges⟩ := System.ended_of_finished hgives
      have hjoined := hsys.finished child (List.mem_of_getElem? hchild) _ hresult
      rwa [hexchanges] at hjoined

/-- A task that is woken up goes on as judged, in the state it finds. -/
theorem judged (hsys : sys.Sound spec P) {reply : (e : S.External) → S.Answer e} {id : Nat}
    {task task' : Task S} {spawned : List (Task S)}
    (h : P.Resumes reply sys sys' id task task' spawned)
    (hadmits : ∀ w next, task.rest = .await w next → spec.holds task.frame sys.shared →
      ∀ r, sys.Replies spec reply w r →
        spec.admits task.job task.history task.frame sys.shared w r) :
    task.Wakes task'.history ∧
    ∃ rest : Coroutine S S.Result, rest.Sat (spec.contract task.job) (spec.post task.job)
        task'.history task.frame sys.shared ∧
      rest.advance sys.shared task.frame = some (sys'.shared, task'.frame, task'.rest) := by
  have hmem := List.mem_of_getElem? h.found
  have hready := hsys.ready task hmem
  have hholds := hsys.holds task hmem h.unfinished
  unfold Task.Ready at hready
  rcases h.wakes with ⟨w, next, r, hrest, hgives, hhistory, -, hrun⟩ |
    ⟨hawait, hnone, hhistory, -, hrun⟩
  · rw [hrest] at hready
    refine ⟨Or.inl ⟨w, next, r, hrest, hhistory⟩, next r, ?_, hrun⟩
    rw [hhistory]
    exact hready.2 _ _ hholds (hadmits w next hrest hholds r (hsys.replies hgives))
  · have hfresh := hhistory.trans (hsys.fresh task hmem h.unfinished hawait)
    refine ⟨Or.inr ⟨hawait, hfresh⟩, task.rest, ?_, hrun⟩
    rw [hhistory]
    split at hready
    · rename_i result hrest
      simp [Task.result?, hrest] at hnone
    · rename_i hrest
      simp [Task.result?, hrest] at hnone
    · rename_i w next hrest
      exact absurd hrest (hawait w next)
    · exact hready sys.shared hholds

theorem start (hvalid : spec.Valid P) (hsys : sys.Sound spec P) {job : S.Job}
    (hjob : spec.allowed job) :
    System.Sound spec P { sys with tasks := sys.tasks ++ [P.newTask job] } where
  shared := hsys.shared
  ready task htask := by
    rcases List.mem_append.mp htask with hold | hnew
    · exact hsys.ready task hold
    · rw [List.mem_singleton.mp hnew]
      exact fun s hs => hvalid.entry job s hjob hs
  holds task htask hresult := by
    rcases List.mem_append.mp htask with hold | hnew
    · exact hsys.holds task hold hresult
    · rw [List.mem_singleton.mp hnew]
      exact hsys.shared
  finished task htask result hresult := by
    rcases List.mem_append.mp htask with hold | hnew
    · exact hsys.finished task hold result hresult
    · rw [List.mem_singleton.mp hnew] at hresult
      cases hresult
  joins task htask id job finished hmem := by
    rcases List.mem_append.mp htask with hold | hnew
    · obtain ⟨child, hchild, hended⟩ := hsys.joins task hold id job finished hmem
      have hlt := (List.getElem?_eq_some_iff.mp hchild).1
      exact ⟨child, by rw [List.getElem?_append_left hlt, hchild], hended⟩
    · rw [List.mem_singleton.mp hnew] at hmem
      cases hmem
  fresh task htask hresult hawait := by
    rcases List.mem_append.mp htask with hold | hnew
    · exact hsys.fresh task hold hresult hawait
    · rw [List.mem_singleton.mp hnew]
      rfl

/-- Where a judged task stops, it has ended as specified or it waits. -/
theorem stops {task' : Task S} {job : S.Job} {c : Coroutine S S.Result} {s s' : S.State}
    {frame : S.Frame} {h : List (Event S)}
    (hsat : c.Sat (spec.contract job) (spec.post job) h frame s)
    (hrun : c.advance s frame = some (s', task'.frame, task'.rest)) :
    (∃ result, task'.result? = some result ∧ spec.post job h task'.frame result s') ∨
      ∃ w next, task'.rest = .await w next ∧ w.Legal (spec.contract job) ∧
        spec.holds task'.frame s' ∧
          ∀ s reply, spec.holds task'.frame s → spec.admits job h task'.frame s w reply →
            (next reply).Sat (spec.contract job) (spec.post job) (h ++ [.of w reply])
              task'.frame s := by
  rcases hsat.advance hrun with (⟨value, hrest, hpost⟩ | ⟨hrest, hthrows⟩) | hwaits
  · exact Or.inl ⟨value, by rw [Task.result?, hrest], hpost⟩
  · exact Or.inl ⟨S.thrown, by rw [Task.result?, hrest], hthrows⟩
  · exact Or.inr hwaits

theorem resumes (hvalid : spec.Valid P) (hsys : sys.Sound spec P)
    {reply : (e : S.External) → S.Answer e} {id : Nat} {task task' : Task S}
    {spawned : List (Task S)} (h : P.Resumes reply sys sys' id task task' spawned)
    (hstop : (∃ result, task'.result? = some result ∧
        spec.post task.job task'.history task'.frame result sys'.shared) ∨
      ∃ w next, task'.rest = .await w next ∧ w.Legal (spec.contract task.job) ∧
        spec.holds task'.frame sys'.shared ∧
          ∀ s reply, spec.holds task'.frame s →
            spec.admits task.job task'.history task'.frame s w reply →
              (next reply).Sat (spec.contract task.job) (spec.post task.job)
                (task'.history ++ [.of w reply]) task'.frame s)
    (hstable : ∀ other t, other ≠ id → sys.tasks[other]? = some t → t.result? = none →
      spec.holds t.frame sys.shared → spec.holds P.blank sys'.shared →
        spec.holds t.frame sys'.shared) :
    sys'.Sound spec P := by
  have hshared : spec.holds P.blank sys'.shared := by
    rcases hstop with ⟨result, -, hpost⟩ | ⟨w, next, -, -, hholds, -⟩
    · exact hvalid.shared_of_post _ _ _ _ _ hpost
    · exact hvalid.shared_of_holds _ _ hholds
  refine ⟨hshared, h.forall_tasks ?_ hsys.ready ?_, fun t ht hresult => ?_,
    h.forall_tasks ?_ hsys.finished ?_, h.joins hsys.joins, h.forall_tasks ?_ hsys.fresh ?_⟩
  · unfold Task.Ready
    rw [h.job]
    rcases hstop with ⟨result, hresult, -⟩ | ⟨w, next, hrest, hlegal, -, hnext⟩
    · rcases Task.rest_of_result? hresult with hrest | ⟨hrest, -⟩
      · rw [hrest]
        trivial
      · rw [hrest]
        trivial
    · rw [hrest]
      exact ⟨hlegal, hnext⟩
  · intro job next hrest s hs
    have hready := hsys.ready task (List.mem_of_getElem? h.found)
    unfold Task.Ready at hready
    rw [hrest] at hready
    exact hvalid.entry job s hready.1 hs
  · obtain ⟨other, hother⟩ := List.mem_iff_getElem?.mp ht
    rcases h.task_cases hother with ⟨-, rfl⟩ | ⟨hne, hold⟩ | ⟨-, job, next, -, rfl⟩
    · rcases hstop with ⟨result, hended, -⟩ | ⟨w, next, -, -, hholds, -⟩
      · rw [hresult] at hended
        cases hended
      · exact hholds
    · have hbefore := hsys.holds t (List.mem_of_getElem? hold) hresult
      exact hstable other t hne hold hresult hbefore hshared
    · exact hshared
  · intro result hresult
    rcases hstop with ⟨value, hvalue, hpost⟩ | ⟨w, next, hwait, -⟩
    · rw [hresult] at hvalue
      cases hvalue
      rw [h.job]
      exact hvalid.joined_of_post _ _ _ _ _ hpost
    · simp [Task.result?, hwait] at hresult
  · intro job next hrest result hresult
    cases hresult
  · intro hresult hawait
    rcases hstop with ⟨value, hvalue, -⟩ | ⟨w, next, hwait, -⟩
    · rw [hresult] at hvalue
      cases hvalue
    · exact absurd hwait (hawait w next)
  · intro job next hrest hresult hawait
    rfl

/-- A step of a sound system leads to a sound system, and a task that ends in
it ends as specified. -/
theorem step (hvalid : spec.Valid P) (hsys : sys.Sound spec P) {action : Action S}
    (hstep : P.step sys action = some sys') (hmeets : StepMeets spec P sys action sys'.shared) :
    sys'.Sound spec P ∧ (∃ h, spec.changes h sys.shared sys'.shared) ∧
      ∀ (id : Nat) (task : Task S) (result : S.Result), sys'.tasks[id]? = some task →
        task.result? = some result →
          sys.tasks[id]? = some task ∨
            spec.post task.job task.history task.frame result sys'.shared := by
  rcases Program.step_cases hstep with ⟨job, rfl, rfl⟩ |
    ⟨id, reply, task, task', spawned, rfl, hresumes⟩
  · refine ⟨hsys.start hvalid (hmeets.start job rfl), ⟨[], hvalid.changes_refl _ _⟩,
      fun id task result htask hresult => Or.inl ?_⟩
    rcases Nat.lt_or_ge id sys.tasks.length with hlt | hge
    · rwa [List.getElem?_append_left hlt] at htask
    · rw [List.getElem?_append_right hge] at htask
      rw [List.mem_singleton.mp (List.mem_of_getElem? htask)] at hresult
      cases hresult
  · obtain ⟨hwakes, rest, hsat, hrun⟩ := hsys.judged hresumes
      fun w next hrest => hmeets.admits id reply task w next rfl hresumes.found hrest
    have hstop := stops hsat hrun
    have hchanges : spec.changes task'.history sys.shared sys'.shared :=
      hsat.changes_advance hvalid.changes_refl hvalid.changes_trans hrun
    refine ⟨hsys.resumes hvalid hresumes hstop fun other t hne =>
        hmeets.stable id reply task task'.history other t rfl hresumes.found hwakes hchanges hne,
      ⟨task'.history, hchanges⟩,
      fun other t result ht hresult => ?_⟩
    rcases hresumes.task_cases ht with ⟨-, rfl⟩ | ⟨-, hold⟩ | ⟨-, job, next, -, rfl⟩
    · rcases hstop with ⟨value, hvalue, hpost⟩ | ⟨w, next, hwait, -⟩
      · rw [hresult] at hvalue
        cases hvalue
        rw [hresumes.job]
        exact Or.inr hpost
      · simp [Task.result?, hwait] at hresult
    · exact Or.inl hold
    · cases hresult

end System.Sound

end ElioP2P.Library
