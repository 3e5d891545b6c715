import Mathlib.Data.Fintype.Card
import Mathlib.Data.Option.Basic
import Mathlib.Data.Set.Finite.Basic
import Mathlib.Logic.Relation

/-!
# Runs of a labelled transition function

A system is a partial function from a state and a label to the next state; all
nondeterminism is in the label.  `runSteps` takes a list of labels in turn, and
`EveryStep` says that a condition on the label and on the state before the step
holds all along such a run.  Invariants and simulations of single steps lift to
whole runs.
-/

namespace ElioP2P.Library

variable {σ ℓ τ : Type*} {step : σ → ℓ → Option σ} {P : σ → ℓ → Prop}

theorem exists_of_map_snd {α : Type*} {call : Option (α × σ)} {s : σ}
    (h : call.map Prod.snd = some s) : ∃ value, call = some (value, s) := by
  obtain ⟨⟨value, s'⟩, hcall, rfl⟩ := Option.map_eq_some_iff.mp h
  exact ⟨value, hcall⟩

theorem foldl_frame {α π : Type*} (view : σ → π) {f : σ → α → σ}
    (hf : ∀ s item, view (f s item) = view s) (s : σ) (items : List α) :
    view (items.foldl f s) = view s := by
  induction items generalizing s with
  | nil => rfl
  | cons item items ih => rw [List.foldl_cons, ih, hf]

def runSteps (step : σ → ℓ → Option σ) : σ → List ℓ → Option σ
  | s, [] => some s
  | s, label :: labels => (step s label).bind fun s' => runSteps step s' labels

def EveryStep (step : σ → ℓ → Option σ) (P : σ → ℓ → Prop) : σ → List ℓ → Prop
  | _, [] => True
  | s, label :: labels =>
      P s label ∧ (step s label).elim True fun s' => EveryStep step P s' labels

instance EveryStep.decidable [∀ s label, Decidable (P s label)] :
    ∀ s labels, Decidable (EveryStep step P s labels)
  | _, [] => inferInstanceAs (Decidable True)
  | s, label :: labels =>
      have : Decidable ((step s label).elim True fun s' => EveryStep step P s' labels) :=
        match step s label with
        | none => inferInstanceAs (Decidable True)
        | some s' => EveryStep.decidable s' labels
      inferInstanceAs (Decidable (_ ∧ _))

theorem EveryStep.of_forall {Q : ℓ → Prop} {s : σ} {labels : List ℓ}
    (h : ∀ label ∈ labels, Q label) : EveryStep step (fun _ label => Q label) s labels := by
  induction labels generalizing s with
  | nil => trivial
  | cons label labels ih =>
      refine ⟨h label (by simp), ?_⟩
      cases step s label with
      | none => trivial
      | some s' => exact ih fun l hl => h l (by simp [hl])

theorem EveryStep.single {s : σ} {label : ℓ} (h : P s label) : EveryStep step P s [label] := by
  refine ⟨h, ?_⟩
  cases step s label <;> trivial

theorem EveryStep.mono {Q : σ → ℓ → Prop} {s : σ} {labels : List ℓ}
    (hP : EveryStep step P s labels) (hPQ : ∀ s label, P s label → Q s label) :
    EveryStep step Q s labels := by
  induction labels generalizing s with
  | nil => trivial
  | cons label labels ih =>
      refine ⟨hPQ s label hP.1, ?_⟩
      have hrest := hP.2
      cases hstep : step s label with
      | none => trivial
      | some s' =>
          rw [hstep] at hrest
          exact ih hrest

theorem EveryStep.and {Q : σ → ℓ → Prop} {s : σ} {labels : List ℓ} (hP : EveryStep step P s labels)
    (hQ : EveryStep step Q s labels) :
    EveryStep step (fun s label => P s label ∧ Q s label) s labels := by
  induction labels generalizing s with
  | nil => trivial
  | cons label labels ih =>
      refine ⟨⟨hP.1, hQ.1⟩, ?_⟩
      have hrestP := hP.2
      have hrestQ := hQ.2
      cases hstep : step s label with
      | none => trivial
      | some s' =>
          rw [hstep] at hrestP hrestQ
          exact ih hrestP hrestQ

theorem EveryStep.tail {s t : σ} {label : ℓ} {labels : List ℓ}
    (h : EveryStep step P s (label :: labels)) (ht : step s label = some t) :
    EveryStep step P t labels := by
  have hrest := h.2
  rwa [ht] at hrest

theorem runSteps_cons {s s' : σ} {label : ℓ} {labels : List ℓ} :
    runSteps step s (label :: labels) = some s' ↔
      ∃ t, step s label = some t ∧ runSteps step t labels = some s' := by
  simp [runSteps, Option.bind_eq_some_iff]

theorem everyStep_isSome_of_runSteps {s s' : σ} {labels : List ℓ}
    (hrun : runSteps step s labels = some s') :
    EveryStep step (fun s label => (step s label).isSome = true) s labels := by
  induction labels generalizing s with
  | nil => trivial
  | cons label labels ih =>
      obtain ⟨t, ht, hrest⟩ := runSteps_cons.mp hrun
      refine ⟨by simp [ht], ?_⟩
      rw [ht]
      exact ih hrest

theorem everyStep_congr {Q : σ → ℓ → Prop} {J : σ → Prop}
    (hkeep : ∀ s label s', J s → step s label = some s' → J s')
    (hiff : ∀ s label, J s → (P s label ↔ Q s label)) {s : σ} {labels : List ℓ} (hJ : J s) :
    EveryStep step P s labels ↔ EveryStep step Q s labels := by
  induction labels generalizing s with
  | nil => exact Iff.rfl
  | cons label labels ih =>
      refine and_congr (hiff s label hJ) ?_
      cases hstep : step s label with
      | none => exact Iff.rfl
      | some s' => exact ih (hkeep s label s' hJ hstep)

/-- If `P` is what a step with `Q` needs in order to lead to `I`, then in a run
of such steps it holds at every step exactly when every state reached is in
`I`. -/
theorem everyStep_iff_forall_reached_of {I J : σ → Prop} {Q : σ → ℓ → Prop}
    (hkeep : ∀ s label s', J s → Q s label → step s label = some s' → J s')
    (hneeds : ∀ s label, J s → I s → Q s label →
      (P s label ↔ ∀ s', step s label = some s' → I s'))
    {s : σ} {labels : List ℓ} (hJ : J s) (hI : I s) (hQ : EveryStep step Q s labels) :
    EveryStep step P s labels ↔
      ∀ front t, front <+: labels → runSteps step s front = some t → I t := by
  constructor
  · rintro hP front t ⟨back, rfl⟩ hrun
    induction front generalizing s with
    | nil =>
        cases hrun
        exact hI
    | cons label front ih =>
        obtain ⟨u, hu, hrest⟩ := runSteps_cons.mp hrun
        have hIu := (hneeds s label hJ hI hQ.1).mp hP.1 u hu
        exact ih (hkeep s label u hJ hQ.1 hu) hIu (hQ.tail hu) (hP.tail hu) hrest
  · intro hreach
    induction labels generalizing s with
    | nil => trivial
    | cons label labels ih =>
        have hnext : ∀ u, step s label = some u → I u := fun u hu =>
          hreach [label] u ⟨labels, rfl⟩ (runSteps_cons.mpr ⟨u, hu, rfl⟩)
        refine ⟨(hneeds s label hJ hI hQ.1).mpr hnext, ?_⟩
        cases hu : step s label with
        | none => trivial
        | some u =>
            apply ih (hkeep s label u hJ hQ.1 hu) (hnext u hu) (hQ.tail hu)
            intro front t hfront hrun
            exact hreach (label :: front) t ((List.prefix_cons_inj label).mpr hfront)
              (runSteps_cons.mpr ⟨u, hu, hrun⟩)

theorem everyStep_iff_forall_reached {I J : σ → Prop}
    (hkeep : ∀ s label s', J s → step s label = some s' → J s')
    (hneeds : ∀ s label, J s → I s → (P s label ↔ ∀ s', step s label = some s' → I s'))
    {s : σ} {labels : List ℓ} (hJ : J s) (hI : I s) :
    EveryStep step P s labels ↔
      ∀ front t, front <+: labels → runSteps step s front = some t → I t :=
  everyStep_iff_forall_reached_of (Q := fun _ _ => True)
    (fun s label s' h _ hstep => hkeep s label s' h hstep)
      (fun s label hs hi _ => hneeds s label hs hi)
    hJ hI (EveryStep.of_forall fun _ _ => trivial)

theorem runSteps_simulation {spec : τ → ℓ → τ} {R : σ → τ → Prop}
    (hstep : ∀ s t label s', R s t → P s label → step s label = some s' →
      R s' (spec t label))
    {s s' : σ} {t : τ} {labels : List ℓ} (hR : R s t) (hP : EveryStep step P s labels)
    (hrun : runSteps step s labels = some s') : R s' (labels.foldl spec t) := by
  induction labels generalizing s t with
  | nil =>
      cases hrun
      exact hR
  | cons label labels ih =>
      obtain ⟨u, hu, hrest⟩ := runSteps_cons.mp hrun
      exact ih (hstep s t label u hR hP.1 hu) (hP.tail hu) hrest

theorem runSteps_invariant {I : σ → Prop}
    (hstep : ∀ s label s', I s → P s label → step s label = some s' → I s')
    {s s' : σ} {labels : List ℓ} (hI : I s) (hP : EveryStep step P s labels)
    (hrun : runSteps step s labels = some s') : I s' :=
  @runSteps_simulation σ ℓ Unit step P (fun u _ => u) (fun s _ => I s)
    (fun s _ label s' => hstep s label s') s s' () labels hI hP hrun

/-! ## What has happened in a run -/

def Taken (step : σ → ℓ → Option σ) (start : σ) (labels : List ℓ) (s : σ) (label : ℓ) : Prop :=
  ∃ front back, labels = front ++ label :: back ∧ runSteps step start front = some s

theorem Taken.mem {start s : σ} {labels : List ℓ} {label : ℓ}
    (h : Taken step start labels s label) : label ∈ labels := by
  obtain ⟨front, back, rfl, -⟩ := h
  exact List.mem_append_right front List.mem_cons_self

theorem runSteps_append {s s' : σ} {front back : List ℓ} :
    runSteps step s (front ++ back) = some s' ↔
      ∃ t, runSteps step s front = some t ∧ runSteps step t back = some s' := by
  induction front generalizing s with
  | nil => simp [runSteps]
  | cons label front ih =>
      rw [List.cons_append, runSteps_cons]
      constructor
      · rintro ⟨u, hu, hrest⟩
        obtain ⟨t, ht, hback⟩ := ih.mp hrest
        exact ⟨t, runSteps_cons.mpr ⟨u, hu, ht⟩, hback⟩
      · rintro ⟨t, ht, hback⟩
        obtain ⟨u, hu, hfront⟩ := runSteps_cons.mp ht
        exact ⟨u, hu, ih.mpr ⟨t, hfront, hback⟩⟩

theorem everyStep_append {s : σ} {front back : List ℓ} :
    EveryStep step P s (front ++ back) ↔
      EveryStep step P s front ∧
        ∀ t, runSteps step s front = some t → EveryStep step P t back := by
  induction front generalizing s with
  | nil => simp [EveryStep, runSteps]
  | cons label front ih =>
      simp only [List.cons_append, EveryStep, runSteps]
      cases step s label with
      | none => simp
      | some u =>
          simp only [Option.elim_some, Option.bind_some, ih]
          exact and_assoc.symm

theorem EveryStep.of_taken {start s : σ} {labels : List ℓ} {label : ℓ}
    (h : EveryStep step P start labels) (htaken : Taken step start labels s label) : P s label := by
  obtain ⟨front, back, rfl, hfront⟩ := htaken
  induction front generalizing start with
  | nil =>
      cases hfront
      exact h.1
  | cons first front ih =>
      obtain ⟨t, ht, hrest⟩ := runSteps_cons.mp hfront
      exact ih hrest (h.tail ht)

theorem runSteps_invariant_taken {I : σ → Prop} {start s' : σ} {labels : List ℓ}
    (hstep : ∀ s label s', I s → Taken step start labels s label → step s label = some s' → I s')
    (hI : I start) (hrun : runSteps step start labels = some s') : I s' := by
  suffices h : ∀ back front s, labels = front ++ back → runSteps step start front = some s →
      I s → runSteps step s back = some s' → I s' from h labels [] start rfl rfl hI hrun
  intro back
  induction back with
  | nil =>
      intro front s _ _ hs hback
      cases hback
      exact hs
  | cons label back ih =>
      intro front s hlabels hfront hs hback
      obtain ⟨t, ht, hrest⟩ := runSteps_cons.mp hback
      have ht' : runSteps step start (front ++ [label]) = some t :=
        runSteps_append.mpr ⟨s, hfront, runSteps_cons.mpr ⟨t, ht, rfl⟩⟩
      apply ih (front ++ [label]) t _ ht' _ hrest
      · rw [hlabels, List.append_assoc]
        rfl
      · exact hstep s label t hs ⟨front, back, hlabels, hfront⟩ ht

/-- Where a step says what brings a thing about and what takes it away, a run has
it at its end if it has been there all along, or if some step has brought it and
none has taken it away since. -/
theorem holds_of_runSteps_iff {holds : σ → Prop} {brings takes : σ → ℓ → Prop}
    (hstep : ∀ s label s', step s label = some s' →
      (holds s' ↔ brings s label ∨ holds s ∧ ¬ takes s label))
    {s s' : σ} {labels : List ℓ} (hrun : runSteps step s labels = some s') :
    holds s' ↔
      holds s ∧ EveryStep step (fun s label => ¬ takes s label) s labels ∨
        ∃ front label back t t', labels = front ++ label :: back ∧
          runSteps step s front = some t ∧ step t label = some t' ∧ brings t label ∧
          EveryStep step (fun s label => ¬ takes s label) t' back := by
  induction labels generalizing s with
  | nil =>
      cases hrun
      simp [EveryStep]
  | cons label labels ih =>
      obtain ⟨u, hu, hrest⟩ := runSteps_cons.mp hrun
      have hkept : EveryStep step (fun s label => ¬ takes s label) s (label :: labels) ↔
          ¬ takes s label ∧ EveryStep step (fun s label => ¬ takes s label) u labels := by
        rw [EveryStep, hu]
        exact Iff.rfl
      rw [ih hrest, hstep s label u hu, hkept]
      constructor
      · rintro (⟨hbrings | ⟨hholds, htakes⟩, hlater⟩ | ⟨front, other, back, t, t', rfl, hfront, h⟩)
        · exact Or.inr ⟨[], label, labels, s, u, rfl, rfl, hu, hbrings, hlater⟩
        · exact Or.inl ⟨hholds, htakes, hlater⟩
        · exact Or.inr ⟨label :: front, other, back, t, t', rfl,
            runSteps_cons.mpr ⟨u, hu, hfront⟩, h⟩
      · rintro (⟨hholds, htakes, hlater⟩ | ⟨front, other, back, t, t', hlabels, hfront,
          ht', hrest'⟩)
        · exact Or.inl ⟨Or.inr ⟨hholds, htakes⟩, hlater⟩
        · cases front with
          | nil =>
              cases hfront
              rw [List.nil_append, List.cons.injEq] at hlabels
              obtain ⟨rfl, rfl⟩ := hlabels
              rw [hu] at ht'
              cases ht'
              exact Or.inl ⟨Or.inl hrest'.1, hrest'.2⟩
          | cons first front =>
              rw [List.cons_append, List.cons.injEq] at hlabels
              obtain ⟨rfl, rfl⟩ := hlabels
              obtain ⟨v, hv, hfront'⟩ := runSteps_cons.mp hfront
              rw [hu] at hv
              cases hv
              exact Or.inr ⟨front, other, back, t, t', rfl, hfront', ht', hrest'⟩

/-! ## What every run comes to -/

/-- Every run of allowed steps that does not stop while a free step is left
comes to a state with `Q`. -/
inductive Inevitable (step : σ → ℓ → Option σ) (free allowed : σ → ℓ → Prop) (Q : σ → Prop) :
    σ → Prop
  | now {s : σ} : Q s → Inevitable step free allowed Q s
  | later {s : σ} : (∃ label s', free s label ∧ step s label = some s') →
      (∀ label s', allowed s label → step s label = some s' →
        Inevitable step free allowed Q s') →
      Inevitable step free allowed Q s

/-- An invariant that leaves a free step until `Q` holds makes `Q` inevitable
if allowed steps go down in a well-founded order. -/
theorem inevitable_of_wellFounded {μ : Type*} {r : μ → μ → Prop} (hwf : WellFounded r)
    (measure : σ → μ) {free allowed : σ → ℓ → Prop} {I Q : σ → Prop}
    (hdown : ∀ s label s', I s → allowed s label → step s label = some s' →
      r (measure s') (measure s))
    (hkeep : ∀ s label s', I s → allowed s label → step s label = some s' → I s')
    (hprogress : ∀ s, I s → Q s ∨ ∃ label s', free s label ∧ step s label = some s')
    {s : σ} (hI : I s) : Inevitable step free allowed Q s := by
  generalize hm : measure s = m
  induction m using hwf.induction generalizing s with
  | _ m ih =>
      rcases hprogress s hI with hQ | hfree
      · exact .now hQ
      · apply Inevitable.later hfree
        intro label s' hallowed hstep
        have hlt := hdown s label s' hI hallowed hstep
        rw [hm] at hlt
        exact ih _ hlt (hkeep s label s' hI hallowed hstep) rfl

/-- What happens after `Q` does not matter. -/
theorem Inevitable.of_until {free allowed : σ → ℓ → Prop} {Q : σ → Prop} {s : σ}
    (h : Inevitable step free (fun s label => allowed s label ∧ ¬ Q s) Q s) :
    Inevitable step free allowed Q s := by
  induction h with
  | now hQ => exact .now hQ
  | @later s hfree hnext ih =>
      by_cases hQ : Q s
      · exact .now hQ
      · exact .later hfree fun label s' hallowed hstep => ih label s' ⟨hallowed, hQ⟩ hstep

/-! ## Walks -/

open Relation (ReflTransGen TransGen)

variable {next : σ → σ → Prop}

/-- Where finitely many states can be reached, every walk that cannot come back
to a state comes to its end. -/
theorem acc_of_not_transGen {start : σ} (hfinite : {s | ReflTransGen next start s}.Finite)
    (hback : ∀ s, ReflTransGen next start s → ¬ TransGen next s s) :
    Acc (fun s' s => next s s') start := by
  let r : {s // ReflTransGen next start s} → {s // ReflTransGen next start s} → Prop :=
    fun s' s => TransGen next s s'
  have : Finite {s // ReflTransGen next start s} := hfinite
  have : IsTrans _ r := ⟨fun _ _ _ hba hcb => hcb.trans hba⟩
  have : Std.Irrefl r := ⟨fun s => hback s.val s.property⟩
  have hwf : WellFounded r := Finite.wellFounded_of_trans_of_irrefl r
  suffices h : ∀ s : {s // ReflTransGen next start s}, Acc (fun s' s => next s s') s.val from
    h ⟨start, .refl⟩
  intro s
  induction s using hwf.induction with
  | _ s ih => exact .intro s.val fun s' hs' => ih ⟨s', s.property.tail hs'⟩ (.single hs')

theorem exists_next_of_transGen {s t : σ} (hback : TransGen next t t) (h : TransGen next s t) :
    ∃ s', next s s' ∧ TransGen next s' t := by
  obtain ⟨s', hnext, hrest⟩ := TransGen.head'_iff.mp h
  exact ⟨s', hnext, hback.trans_right hrest⟩

end ElioP2P.Library
