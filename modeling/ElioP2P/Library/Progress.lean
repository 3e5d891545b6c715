import ElioP2P.Library.RelyGuarantee
import ElioP2P.Library.Runs
import Mathlib.Logic.Hydra

/-!
# Tasks that come to their end

`Coroutine.Meets` is a judgement of total correctness: a coroutine that meets a
regime never hangs, as long as each reply, and the state in which it comes, are
ones that it may assume.  What it may assume and what it promises depend on what
it has seen so far, so one task can be judged under several regimes at once.

Every step of a system shortens a task.  If a task only spawns tasks of a lower
level, the multiset of what is left of all tasks goes down with every step.
-/

namespace ElioP2P.Library

variable {S : Signature} {α β : Type}

/-! ## Judgements about one coroutine -/

/-- What a coroutine may assume where it goes on and what it promises where it
stops. -/
structure Regime (S : Signature) where
  /-- What it may assume of the state in which it starts. -/
  begins : S.State → Prop
  /-- What it may assume of a reply, and of the state in which it gets it. -/
  admits : List (Event S) → S.State → (w : Wait S) → w.Reply → Prop
  /-- What a section does, from the state it finds to the state it leaves. -/
  leaves : List (Event S) → S.State → S.State → Prop
  /-- Where it may stop and wait. -/
  waits : List (Event S) → S.State → Wait S → Prop
  /-- From which state to which state an exception may escape from it. -/
  throws : List (Event S) → S.State → S.State → Prop

/-- Continued with the given history in state `s`, in a section that started in
state `found`, the coroutine keeps to the regime and ends in `post`. -/
def Coroutine.Meets (R : Regime S) (post : List (Event S) → α → S.State → S.State → Prop) :
    Coroutine S α → List (Event S) → S.State → S.State → Prop
  | .done value, h, found, s => post h value found s
  | .diverge, _, _, _ => False
  | .raise, h, found, s => R.throws h found s
  | .get next, h, found, s => (next s).Meets R post h found s
  | .set s' next, h, found, _ => next.Meets R post h found s'
  | .publish _ next, h, found, s => next.Meets R post h found s
  | .await w next, h, found, s =>
      R.leaves h found s ∧ R.waits h s w ∧
        ∀ s' reply, R.admits h s' w reply →
          (next reply).Meets R post (h ++ [.of w reply]) s' s'

def Regime.both (R R' : Regime S) : Regime S where
  begins s := R.begins s ∧ R'.begins s
  admits h s w reply := R.admits h s w reply ∧ R'.admits h s w reply
  leaves h found s := R.leaves h found s ∧ R'.leaves h found s
  waits h s w := R.waits h s w ∧ R'.waits h s w
  throws h found s := R.throws h found s ∧ R'.throws h found s

namespace Coroutine

variable {R : Regime S} {post post' : List (Event S) → α → S.State → S.State → Prop}
  {h : List (Event S)} {found s : S.State}

theorem Meets.seq {c : Coroutine S α} {k : α → Coroutine S β}
    {post' : List (Event S) → β → S.State → S.State → Prop} (hc : c.Meets R post h found s)
    (hk : ∀ h value found s, post h value found s → (k value).Meets R post' h found s) :
    (c >>= k).Meets R post' h found s := by
  change (c.bind k).Meets R post' h found s
  induction c generalizing h found s with
  | done value => exact hk _ _ _ _ hc
  | diverge => cases hc
  | raise => exact hc
  | get next ih => exact ih s hc
  | set s' next ih => exact ih hc
  | publish f next ih => exact ih hc
  | await w next ih =>
      obtain ⟨hleaves, hwaits, hnext⟩ := hc
      exact ⟨hleaves, hwaits, fun s' reply hreply => ih reply (hnext s' reply hreply)⟩

theorem Meets.mono {c : Coroutine S α} (hc : c.Meets R post h found s)
    (hpost : ∀ h value found s, post h value found s → post' h value found s) :
    c.Meets R post' h found s := by
  rw [← bind_done c]
  exact hc.seq hpost

theorem Meets.bind {c : Coroutine S α} {k : α → Coroutine S β}
    {post : List (Event S) → β → S.State → S.State → Prop}
    (hc : c.Meets R (fun h value found s => (k value).Meets R post h found s) h found s) :
    (c >>= k).Meets R post h found s :=
  hc.seq fun _ _ _ _ hk => hk

theorem meets_atomically {f : S.State → Option (α × S.State)} {value : α} {s' : S.State}
    (hf : f s = some (value, s')) (hpost : post h value found s') :
    (atomically f).Meets R post h found s := by
  simp only [atomically, Meets, hf]
  exact hpost

theorem Meets.advance {c c' : Coroutine S α} {s' : S.State} {frame frame' : S.Frame}
    (hc : c.Meets R post h found s) (hrun : c.advance s frame = some (s', frame', c')) :
    ((∃ value, c' = .done value ∧ post h value found s') ∨
      c' = .raise ∧ R.throws h found s') ∨
    ∃ w next, c' = .await w next ∧ R.leaves h found s' ∧ R.waits h s' w ∧
      ∀ s'' reply, R.admits h s'' w reply →
        (next reply).Meets R post (h ++ [.of w reply]) s'' s'' := by
  induction c generalizing s frame with
  | done value =>
      cases hrun
      exact Or.inl (Or.inl ⟨value, rfl, hc⟩)
  | diverge => cases hrun
  | raise =>
      cases hrun
      exact Or.inl (Or.inr ⟨rfl, hc⟩)
  | get next ih => exact ih s hc hrun
  | set t next ih => exact ih hc hrun
  | publish f next ih => exact ih hc hrun
  | await w next ih =>
      cases hrun
      exact Or.inr ⟨w, next, rfl, hc⟩

theorem Meets.both {R' : Regime S} {c : Coroutine S α} (hc : c.Meets R post h found s)
    (hc' : c.Meets R' post' h found s) :
    c.Meets (R.both R')
      (fun h value found s => post h value found s ∧ post' h value found s) h found s := by
  induction c generalizing h found s with
  | done value => exact ⟨hc, hc'⟩
  | diverge => exact hc
  | raise => exact ⟨hc, hc'⟩
  | get next ih => exact ih s hc hc'
  | set s' next ih => exact ih hc hc'
  | publish f next ih => exact ih hc hc'
  | await w next ih =>
      obtain ⟨hleft, hwait, hnext⟩ := hc
      obtain ⟨hleft', hwait', hnext'⟩ := hc'
      exact ⟨⟨hleft, hleft'⟩, ⟨hwait, hwait'⟩, fun s' reply hreply =>
        ih reply (hnext s' reply hreply.1) (hnext' s' reply hreply.2)⟩

theorem Meets.sat {C : Contract S} {ends : List (Event S) → S.Frame → α → S.State → Prop}
    {c : Coroutine S α} {frame : S.Frame} (hc : c.Meets R post h found s)
    (hsat : c.Sat C ends h frame s)
    (hadmits : ∀ h frame s w r, R.admits h s w r → C.holds frame s ∧ C.admits h frame s w r) :
    c.Meets R (fun h value found s => post h value found s ∧ ∃ frame, ends h frame value s)
      h found s := by
  induction c generalizing h found s frame with
  | done value => exact ⟨hc, frame, hsat⟩
  | diverge => exact hc
  | raise => exact hc
  | get next ih => exact ih s hc hsat
  | set s' next ih => exact ih hc hsat.2
  | publish f next ih => exact ih hc hsat
  | await w next ih =>
      obtain ⟨hleft, hwait, hnext⟩ := hc
      obtain ⟨-, -, hgoes⟩ := hsat
      refine ⟨hleft, hwait, fun s' reply hreply => ?_⟩
      obtain ⟨hholds, hadmit⟩ := hadmits h frame s' w reply hreply
      exact ih reply (hnext s' reply hreply) (hgoes s' reply hholds hadmit)

theorem Meets.advance_isSome {c : Coroutine S α} (hc : c.Meets R post h found s)
    (frame : S.Frame) : ∃ result, c.advance s frame = some result := by
  induction c generalizing s frame with
  | done value => exact ⟨_, rfl⟩
  | diverge => exact hc.elim
  | raise => exact ⟨_, rfl⟩
  | get next ih => exact ih s hc frame
  | set t next ih => exact ih hc frame
  | publish f next ih => exact ih hc (f frame)
  | await w next ih => exact ⟨_, rfl⟩

end Coroutine

/-! ## What tasks know of one another -/

structure System.Truthful (sys : System S) : Prop where
  spawned : ∀ task ∈ sys.tasks, ∀ id job, .spawned id job ∈ task.history →
    ∃ child, sys.tasks[id]? = some child ∧ child.job = job
  joined : ∀ task ∈ sys.tasks, ∀ id job finished, .joined id job finished ∈ task.history →
    sys.Ended id job finished

theorem System.Truthful.resumes {P : Program S} {reply : (e : S.External) → S.Answer e}
    {sys sys' : System S} {id : Nat} {task task' : Task S} {spawned : List (Task S)}
    (hsys : sys.Truthful) (h : P.Resumes reply sys sys' id task task' spawned) :
    sys'.Truthful where
  spawned t ht child job hmem := by
    rcases h.event_cases t ht _ hmem with ⟨t₀, ht₀, hearlier⟩ | ⟨w, next, r, hrest, hgives, hnow⟩
    · obtain ⟨c, hc, rfl⟩ := hsys.spawned t₀ ht₀ child job hearlier
      exact h.job_kept hc
    · cases w with
      | spawn job' =>
          cases hnow
          cases hgives
          exact ⟨P.newTask job, h.getElem?_spawned hrest, rfl⟩
      | external e => cases hnow
      | join child' job' => cases hnow
  joined := h.joins hsys.joined

/-! ## Every step shortens a task -/

def System.remains (level : S.Job → Nat) (sys : System S) :
    Multiset (Nat × Coroutine S S.Result) :=
  ↑(sys.tasks.map fun task => (level task.job, task.rest))

abbrev Shorter : Nat × Coroutine S S.Result → Nat × Coroutine S S.Result → Prop :=
  Prod.Lex (· < ·) Coroutine.Below

theorem wellFounded_remains : WellFounded (Relation.CutExpand (Shorter (S := S))) :=
  (WellFounded.prod_lex Nat.lt_wfRel.wf Coroutine.wellFounded_below).cutExpand

theorem cutExpand_set {γ : Type*} {r : γ → γ → Prop} {l new : List γ} {i : Nat} {a b : γ}
    (ha : l[i]? = some a) (hb : r b a) (hnew : ∀ c ∈ new, r c a) :
    Relation.CutExpand r (↑(l.set i b ++ new)) ↑l := by
  obtain ⟨hlt, rfl⟩ := List.getElem?_eq_some_iff.mp ha
  refine ⟨↑(b :: new), l[i], ?_, ?_⟩
  · intro c hc
    rcases List.mem_cons.mp (Multiset.mem_coe.mp hc) with rfl | hc
    · exact hb
    · exact hnew c hc
  · have hset : (l.set i b).Perm (b :: l.eraseIdx i) := List.set_perm_cons_eraseIdx hlt b
    have hold : (l[i] :: l.eraseIdx i).Perm l := List.getElem_cons_eraseIdx_perm hlt
    change (↑(l.set i b ++ new ++ [l[i]]) : Multiset γ) = ↑(l ++ b :: new)
    rw [Multiset.coe_eq_coe]
    calc (l.set i b ++ new ++ [l[i]]).Perm (l[i] :: (l.set i b ++ new)) :=
          List.perm_append_comm
      _ = (l[i] :: l.set i b) ++ new := rfl
      _ |>.Perm ((l[i] :: (b :: l.eraseIdx i)) ++ new) := (hset.cons _).append_right _
      _ |>.Perm ((b :: (l[i] :: l.eraseIdx i)) ++ new) := (List.Perm.swap _ _ _).append_right _
      _ |>.Perm ((b :: l) ++ new) := (hold.cons b).append_right _
      _ |>.Perm (l ++ b :: new) := List.perm_middle.symm

theorem Program.Resumes.below {P : Program S} {reply : (e : S.External) → S.Answer e}
    {sys sys' : System S} {id : Nat} {task task' : Task S} {spawned : List (Task S)}
    (h : P.Resumes reply sys sys' id task task' spawned) (hfresh : task.result? = none →
      (∀ w next, task.rest ≠ .await w next) → task.Fresh) :
    Coroutine.Below task'.rest task.rest := by
  rcases h.wakes with ⟨w, next, r, hrest, -, -, -, hrun⟩ | ⟨hawait, hnone, -, -, hrun⟩
  · rw [hrest]
    exact Coroutine.below_of_await hrun
  · obtain ⟨next, hrest⟩ := hfresh hnone hawait
    rw [hrest] at hrun ⊢
    change (next sys.shared).advance sys.shared task.frame = _ at hrun
    exact Relation.TransGen.tail' (Coroutine.reflTransGen_of_advance hrun) (.get next sys.shared)

/-! ## Judgements about one task -/

def Regime.Covers (R : Regime S)
    (post : List (Event S) → S.Result → S.State → S.State → Prop) : Prop :=
  ∀ h found s, R.throws h found s → post h S.thrown found s

def Regime.Ends (R : Regime S) (ends : List (Event S) → S.Result → Prop) (h : List (Event S))
    (result : S.Result) (found s : S.State) : Prop :=
  R.leaves h found s ∧ ends h result

def Task.Runs (R : Regime S) (post : List (Event S) → S.Result → S.State → S.State → Prop)
    (task : Task S) : Prop :=
  match task.rest with
  | .done _ | .raise => True
  | .get next => task.history = [] ∧ ∀ s, R.begins s → (next s).Meets R post [] s s
  | .await w next => (∃ s, R.waits task.history s w) ∧
      ∀ s reply, R.admits task.history s w reply →
        (next reply).Meets R post (task.history ++ [.of w reply]) s s
  | _ => False

def Task.Goes (R : Regime S) (ends : List (Event S) → S.Result → Prop) (task : Task S) : Prop :=
  match task.rest with
  | .done result => ends task.history result
  | .raise => ends task.history S.thrown
  | .get next => task.history = [] ∧ ∀ s, R.begins s →
      (next s).Meets R (R.Ends ends) [] s s
  | .await w next => (∃ s, R.waits task.history s w) ∧
      ∀ s reply, R.admits task.history s w reply →
        (next reply).Meets R (R.Ends ends) (task.history ++ [.of w reply]) s s
  | _ => False

section Runs

variable {R : Regime S} {post : List (Event S) → S.Result → S.State → S.State → Prop}
  {P : Program S} {reply : (e : S.External) → S.Answer e} {sys sys' : System S} {id : Nat}
  {task task' : Task S} {spawned : List (Task S)}

theorem Task.Runs.cases (h : task.Runs R post) (hresult : task.result? = none) :
    (task.Fresh ∧ task.history = []) ∨ ∃ w next, task.rest = .await w next := by
  unfold Runs at h
  unfold result? at hresult
  split at h
  · rename_i result hrest
    rw [hrest] at hresult
    cases hresult
  · rename_i hrest
    rw [hrest] at hresult
    cases hresult
  · rename_i next hrest
    exact Or.inl ⟨⟨next, hrest⟩, h.1⟩
  · rename_i w next hrest
    exact Or.inr ⟨w, next, hrest⟩
  · exact h.elim

theorem Task.Runs.waits {w : Wait S} {next : w.Reply → Coroutine S S.Result}
    (h : task.Runs R post) (hrest : task.rest = .await w next) :
    ∃ s, R.waits task.history s w := by
  unfold Runs at h
  rw [hrest] at h
  exact h.1

theorem Task.runs_of_meets {c : Coroutine S S.Result} {found s s' : S.State} {frame : S.Frame}
    (hcovers : R.Covers post) (hmeets : c.Meets R post task'.history found s)
    (hrun : c.advance s frame = some (s', task'.frame, task'.rest)) :
    task'.Runs R post ∧
      ((∃ result, task'.result? = some result ∧ post task'.history result found s') ∨
        ∃ w next, task'.rest = .await w next ∧ R.leaves task'.history found s' ∧
          R.waits task'.history s' w) := by
  rcases hmeets.advance hrun with (⟨result, hrest, hpost⟩ | ⟨hrest, hthrows⟩) |
    ⟨w, next, hrest, hleaves, hwaits, hnext⟩
  · refine ⟨?_, Or.inl ⟨result, by rw [result?, hrest], hpost⟩⟩
    unfold Runs
    rw [hrest]
    trivial
  · refine ⟨?_, Or.inl ⟨S.thrown, by rw [result?, hrest], hcovers _ _ _ hthrows⟩⟩
    unfold Runs
    rw [hrest]
    trivial
  · refine ⟨?_, Or.inr ⟨w, next, hrest, hleaves, hwaits⟩⟩
    unfold Runs
    rw [hrest]
    exact ⟨⟨s', hwaits⟩, hnext⟩

theorem Task.Runs.resumes (hcovers : R.Covers post) (h : task.Runs R post)
    (hstep : P.Resumes reply sys sys' id task task' spawned)
    (hbegins : task.Fresh → R.begins sys.shared)
    (hadmits : ∀ w next r, task.rest = .await w next → sys.Gives reply w r →
      R.admits task.history sys.shared w r) :
    task'.Runs R post ∧
      ((∃ result, task'.result? = some result ∧
          post task'.history result sys.shared sys'.shared) ∨
        ∃ w next, task'.rest = .await w next ∧
          R.leaves task'.history sys.shared sys'.shared ∧ R.waits task'.history sys'.shared w) := by
  rcases hstep.wakes with ⟨w, next, r, hrest, hgives, hhistory, -, hrun⟩ |
    ⟨hawait, hnone, hhistory, -, hrun⟩
  · unfold Runs at h
    rw [hrest] at h
    have hmeets := h.2 sys.shared r (hadmits w next r hrest hgives)
    rw [← hhistory] at hmeets
    exact runs_of_meets hcovers hmeets hrun
  · rcases h.cases hnone with ⟨⟨next, hrest⟩, hempty⟩ | ⟨w, next, hrest⟩
    · unfold Runs at h
      rw [hrest] at h hrun
      have hmeets := h.2 sys.shared (hbegins ⟨next, hrest⟩)
      rw [← hempty, ← hhistory] at hmeets
      exact runs_of_meets hcovers hmeets hrun
    · exact absurd hrest (hawait w next)

end Runs

section Goes

variable {R : Regime S} {ends : List (Event S) → S.Result → Prop} {P : Program S}
  {reply : (e : S.External) → S.Answer e} {sys sys' : System S} {id : Nat} {task task' : Task S}
  {spawned : List (Task S)}

theorem Task.goes_newTask {job : S.Job}
    (h : ∀ s, R.begins s → (P.entry job).Meets R (R.Ends ends) [] s s) :
    (P.newTask job).Goes R ends := ⟨rfl, h⟩

theorem Task.Goes.ended {result : S.Result} (h : task.Goes R ends)
    (hresult : task.result? = some result) : ends task.history result := by
  unfold Goes at h
  rcases rest_of_result? hresult with hrest | ⟨hrest, rfl⟩
  · rwa [hrest] at h
  · rwa [hrest] at h

theorem Task.goes_iff_runs : task.Goes R ends ↔
    task.Runs R (R.Ends ends) ∧
      ∀ result, task.result? = some result → ends task.history result := by
  unfold Goes Runs result?
  cases task.rest with
  | done result => exact ⟨fun h => ⟨trivial, fun _ hrest => by cases hrest; exact h⟩,
      fun h => h.2 result rfl⟩
  | raise => exact ⟨fun h => ⟨trivial, fun _ hrest => by cases hrest; exact h⟩,
      fun h => h.2 S.thrown rfl⟩
  | await w next => exact ⟨fun h => ⟨h, nofun⟩, And.left⟩
  | get next => exact ⟨fun h => ⟨h, nofun⟩, And.left⟩
  | diverge => exact ⟨False.elim, And.left⟩
  | set s next => exact ⟨False.elim, And.left⟩
  | publish f next => exact ⟨False.elim, And.left⟩

theorem Task.Goes.cases (h : task.Goes R ends) (hresult : task.result? = none) :
    (task.Fresh ∧ task.history = []) ∨ ∃ w next, task.rest = .await w next :=
  (goes_iff_runs.mp h).1.cases hresult

theorem Task.Goes.waits {w : Wait S} {next : w.Reply → Coroutine S S.Result}
    (h : task.Goes R ends) (hrest : task.rest = .await w next) :
    ∃ s, R.waits task.history s w :=
  (goes_iff_runs.mp h).1.waits hrest

theorem Task.Goes.last_event (h : task.Goes R ends)
    (hstep : P.Resumes reply sys sys' id task task' spawned) {before : List (Event S)}
    {event : Event S} (hlast : task'.history = before ++ [event]) :
    ∃ w next r, task.rest = .await w next ∧ sys.Gives reply w r ∧ before = task.history ∧
      event = .of w r := by
  rcases hstep.wakes with ⟨w, next, r, hrest, hgives, hhistory, -⟩ | ⟨hawait, hnone, hhistory, -⟩
  · rw [hhistory] at hlast
    obtain ⟨hbefore, hevent⟩ := List.append_inj' hlast rfl
    cases hevent
    exact ⟨w, next, r, hrest, hgives, hbefore.symm, rfl⟩
  · rcases h.cases hnone with ⟨-, hempty⟩ | ⟨w, next, hrest⟩
    · rw [hhistory, hempty] at hlast
      simp at hlast
    · exact absurd hrest (hawait w next)

theorem Task.goes_of_runs {found s' : S.State} (hruns : task'.Runs R (R.Ends ends))
    (hstops : (∃ result, task'.result? = some result ∧
        R.Ends ends task'.history result found s') ∨
      ∃ w next, task'.rest = .await w next ∧ R.leaves task'.history found s' ∧
        R.waits task'.history s' w) :
    task'.Goes R ends ∧ R.leaves task'.history found s' ∧
      ((∃ result, task'.result? = some result) ∨
        ∃ w next, task'.rest = .await w next ∧ R.waits task'.history s' w) := by
  rcases hstops with ⟨result, hresult, hleaves, hends⟩ | ⟨w, next, hrest, hleaves, hwaits⟩
  · refine ⟨goes_iff_runs.mpr ⟨hruns, fun result' hresult' => ?_⟩, hleaves,
      Or.inl ⟨result, hresult⟩⟩
    rw [hresult] at hresult'
    cases hresult'
    exact hends
  · refine ⟨goes_iff_runs.mpr ⟨hruns, fun result hresult => ?_⟩, hleaves,
      Or.inr ⟨w, next, hrest, hwaits⟩⟩
    rw [result?, hrest] at hresult
    cases hresult

theorem Task.goes_of_meets {c : Coroutine S S.Result} {found s s' : S.State} {frame : S.Frame}
    (hcovers : R.Covers (R.Ends ends)) (hmeets : c.Meets R (R.Ends ends) task'.history found s)
    (hrun : c.advance s frame = some (s', task'.frame, task'.rest)) :
    task'.Goes R ends ∧ R.leaves task'.history found s' ∧
      ((∃ result, task'.result? = some result) ∨
        ∃ w next, task'.rest = .await w next ∧ R.waits task'.history s' w) := by
  obtain ⟨hruns, hstops⟩ := runs_of_meets hcovers hmeets hrun
  exact goes_of_runs hruns hstops

theorem Task.Goes.resumes (hcovers : R.Covers (R.Ends ends)) (h : task.Goes R ends)
    (hstep : P.Resumes reply sys sys' id task task' spawned)
    (hbegins : task.Fresh → R.begins sys.shared)
    (hadmits : ∀ w next r, task.rest = .await w next → sys.Gives reply w r →
      R.admits task.history sys.shared w r) :
    task'.Goes R ends ∧ R.leaves task'.history sys.shared sys'.shared ∧
      ((∃ result, task'.result? = some result) ∨
        ∃ w next, task'.rest = .await w next ∧ R.waits task'.history sys'.shared w) := by
  obtain ⟨hruns, hstops⟩ := (goes_iff_runs.mp h).1.resumes hcovers hstep hbegins hadmits
  exact goes_of_runs hruns hstops

theorem Task.Goes.can_resume (h : task.Goes R ends) (htask : sys.tasks[id]? = some task)
    (hresult : task.result? = none) (hbegins : task.Fresh → R.begins sys.shared)
    (hadmits : ∀ w next, task.rest = .await w next →
      ∃ r, sys.Gives reply w r ∧ R.admits task.history sys.shared w r) :
    ∃ sys', P.step sys (.resume id reply) = some sys' := by
  have hsteps : ∀ events spawned rest result, P.wake sys task reply = some (events, spawned, rest) →
      rest.advance sys.shared task.frame = some result →
        ∃ sys', P.step sys (.resume id reply) = some sys' := by
    rintro events spawned rest ⟨s', frame, rest'⟩ hwake hrun
    refine ⟨⟨s', sys.tasks.set id ⟨task.job, frame, task.history ++ events, rest'⟩ ++ spawned⟩, ?_⟩
    simp only [Program.step, htask, hwake, hrun, Option.bind_eq_bind, Option.bind_some]
  have hcases := h.cases hresult
  unfold Goes at h
  rcases hcases with ⟨⟨next, hrest⟩, -⟩ | ⟨w, next, hrest⟩
  · rw [hrest] at h
    obtain ⟨result, hrun⟩ := (h.2 sys.shared (hbegins ⟨next, hrest⟩)).advance_isSome task.frame
    refine hsteps [] [] (.get next) result ?_ hrun
    simp [Program.wake, hrest]
  · rw [hrest] at h
    obtain ⟨r, hgives, hadmit⟩ := hadmits w next hrest
    obtain ⟨result, hrun⟩ := (h.2 sys.shared r hadmit).advance_isSome task.frame
    exact hsteps _ _ _ result (P.wake_of_gives hrest hgives) hrun

/-- Going on shortens the system if tasks are only spawned on lower levels. -/
theorem Task.Goes.remains (h : task.Goes R ends)
    (hstep : P.Resumes reply sys sys' id task task' spawned) (level : S.Job → Nat)
    (hspawn : ∀ job next, task.rest = .await (.spawn job) next → level job < level task.job) :
    Relation.CutExpand Shorter (sys'.remains level) (sys.remains level) := by
  have hbelow : Coroutine.Below task'.rest task.rest := by
    refine hstep.below fun hnone hawait => ?_
    rcases h.cases hnone with ⟨hfresh, -⟩ | ⟨w, next, hrest⟩
    · exact hfresh
    · exact absurd hrest (hawait w next)
  unfold System.remains
  rw [hstep.tasks, List.map_append, List.map_set]
  refine cutExpand_set (by rw [List.getElem?_map, hstep.found]; rfl) ?_ ?_
  · rw [hstep.job]
    exact Prod.Lex.right _ hbelow
  · intro c hc
    rcases hstep.wakes with ⟨w, next, r, hrest, -, -, rfl, -⟩ | ⟨-, -, -, rfl, -⟩
    · cases w with
      | spawn job =>
          simp only [Program.spawnedBy, List.map_cons, List.map_nil, List.mem_singleton] at hc
          rw [hc]
          exact Prod.Lex.left _ _ (hspawn job next hrest)
      | external e => cases hc
      | join child job => cases hc
    · cases hc

end Goes

end ElioP2P.Library
