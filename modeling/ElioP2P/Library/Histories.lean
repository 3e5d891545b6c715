import Mathlib.Data.List.Chain

/-!
# Histories of a thing that comes and goes

An observer is told when a thing appears (`true`) and when it is gone (`false`).
The history mirrors the thing if the two kinds of news alternate, beginning with
an appearance, and the last one is the truth.
-/

namespace ElioP2P.Library

def Alternates (history : List Bool) : Prop :=
  (false :: history).IsChain (· ≠ ·)

instance (history : List Bool) : Decidable (Alternates history) :=
  inferInstanceAs (Decidable (List.IsChain _ _))

theorem alternates_append {history : List Bool} {news : Bool} :
    Alternates (history ++ [news]) ↔
      Alternates history ∧ (history.getLast?.getD false) ≠ news := by
  unfold Alternates
  rw [← List.cons_append, List.isChain_append]
  simp [List.getLast?_cons]

structure Mirrors (history : List Bool) (present : Prop) : Prop where
  alternates : Alternates history
  present_iff : present ↔ history.getLast? = some true

section Mirrors

variable {history : List Bool} {present present' : Prop}

theorem mirrors_nil (habsent : ¬ present) : Mirrors [] present :=
  ⟨List.isChain_singleton false, by simp [habsent]⟩

theorem Mirrors.getLast?_getD (h : Mirrors history present) :
    history.getLast?.getD false = true ↔ present := by
  rw [h.present_iff]
  cases history.getLast? <;> simp

theorem Mirrors.silent_iff (h : Mirrors history present) :
    Mirrors history present' ↔ (present' ↔ present) := by
  constructor
  · intro h'
    rw [h'.present_iff, h.present_iff]
  · intro heq
    exact ⟨h.alternates, heq.trans h.present_iff⟩

theorem Mirrors.appears_iff (h : Mirrors history present) :
    Mirrors (history ++ [true]) present' ↔ ¬ present ∧ present' := by
  have hlast := h.getLast?_getD
  constructor
  · intro h'
    refine ⟨fun hpresent => ?_, h'.present_iff.mpr (by simp)⟩
    exact (alternates_append.mp h'.alternates).2 (hlast.mpr hpresent)
  · rintro ⟨habsent, hpresent⟩
    exact ⟨alternates_append.mpr ⟨h.alternates, mt hlast.mp habsent⟩, by simp [hpresent]⟩

theorem Mirrors.goes_iff (h : Mirrors history present) :
    Mirrors (history ++ [false]) present' ↔ present ∧ ¬ present' := by
  have hlast := h.getLast?_getD
  constructor
  · intro h'
    have hdiffers := (alternates_append.mp h'.alternates).2
    refine ⟨hlast.mp (Bool.not_eq_false _ ▸ hdiffers), fun hpresent => ?_⟩
    simpa using h'.present_iff.mp hpresent
  · rintro ⟨hpresent, habsent⟩
    refine ⟨alternates_append.mpr ⟨h.alternates, ?_⟩, by simp [habsent]⟩
    rw [hlast.mpr hpresent]
    exact Bool.noConfusion

theorem Mirrors.appear_times_iff (h : Mirrors history present) (count : Nat) :
    Mirrors (history ++ List.replicate count true) present' ↔
      (count = 0 ∧ (present' ↔ present)) ∨ (count = 1 ∧ ¬ present ∧ present') := by
  rcases count with _ | _ | count
  · simp [h.silent_iff]
  · simp [h.appears_iff]
  · have hnot : ¬ Mirrors (history ++ List.replicate (count + 2) true) present' := by
      intro h'
      rw [List.replicate_succ', List.replicate_succ', ← List.append_assoc,
        ← List.append_assoc] at h'
      exact (alternates_append.mp h'.alternates).2 (by simp)
    simp [hnot]

end Mirrors

end ElioP2P.Library
