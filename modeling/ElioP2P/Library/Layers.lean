import Mathlib.Logic.Function.Basic

/-!
# Layers of settings

A source of settings is read binding by binding: where the key of a binding is
given, its text is converted and assigned, and where it is not, the setting stays
as it was.  Of several sources that are read in a row, the last one that gives a
setting decides.
-/

namespace ElioP2P.Library

variable {ι κ τ : Type*} {Value : ι → Type*} [DecidableEq ι]

/-- A key of a source, the setting it is for, and how its text is read: `none` is
an exception. -/
structure Binding (κ τ : Type*) (Value : ι → Type*) where
  key : κ
  setting : ι
  read : τ → Option (Value setting)

namespace Binding

def assign (given : κ → Option τ) (config : ∀ i, Value i) (binding : Binding κ τ Value) :
    Option (∀ i, Value i) :=
  match given binding.key with
  | none => some config
  | some text => (binding.read text).map (Function.update config binding.setting)

def value (given : κ → Option τ) (binding : Binding κ τ Value) (i : ι) : Option (Value i) :=
  if h : binding.setting = i then h ▸ (given binding.key).bind binding.read else none

theorem assign_apply {given : κ → Option τ} {config config' : ∀ i, Value i}
    {binding : Binding κ τ Value} (h : binding.assign given config = some config') (i : ι) :
    config' i = (binding.value given i).getD (config i) := by
  unfold assign at h
  unfold value
  split at h
  · rename_i hnone
    cases h
    split
    · rename_i hi
      subst hi
      rw [hnone]
      rfl
    · rfl
  · rename_i text hsome
    obtain ⟨v, hv, rfl⟩ := Option.map_eq_some_iff.mp h
    split
    · rename_i hi
      subst hi
      rw [Function.update_self, hsome]
      exact (congrArg (fun o => Option.getD o (config binding.setting)) hv).symm
    · rename_i hi
      exact Function.update_of_ne (Ne.symm hi) v config

end Binding

def assignAll (given : κ → Option τ) (bindings : List (Binding κ τ Value))
    (config : ∀ i, Value i) : Option (∀ i, Value i) :=
  bindings.foldlM (Binding.assign given) config

/-- What a source gives for a setting: the last binding that gives one counts. -/
def layer (given : κ → Option τ) : List (Binding κ τ Value) → (i : ι) → Option (Value i)
  | [], _ => none
  | binding :: bindings, i => (layer given bindings i).or (binding.value given i)

def Readable (given : κ → Option τ) (bindings : List (Binding κ τ Value)) : Prop :=
  ∀ binding ∈ bindings, ∀ text, given binding.key = some text → (binding.read text).isSome

theorem isSome_assignAll_iff {given : κ → Option τ} {bindings : List (Binding κ τ Value)}
    {config : ∀ i, Value i} :
    (assignAll given bindings config).isSome ↔ Readable given bindings := by
  induction bindings generalizing config with
  | nil => simp [assignAll, Readable]
  | cons binding bindings ih =>
      have hrest : ∀ config, (bindings.foldlM (Binding.assign given) config).isSome ↔
          Readable given bindings := fun config => ih
      rw [assignAll, List.foldlM_cons, Readable, List.forall_mem_cons]
      cases hgiven : given binding.key with
      | none => simp [Binding.assign, hgiven, hrest, Readable]
      | some text =>
          cases hread : binding.read text with
          | none => simp [Binding.assign, hgiven, hread]
          | some v => simp [Binding.assign, hgiven, hread, hrest, Readable]

theorem layer_eq_none {given : κ → Option τ} (hnone : ∀ key, given key = none)
    (bindings : List (Binding κ τ Value)) (i : ι) : layer given bindings i = none := by
  induction bindings with
  | nil => rfl
  | cons binding bindings ih =>
      rw [layer, ih, Binding.value, hnone]
      split
      · rename_i hi
        subst hi
        rfl
      · rfl

def named (given : κ → Option τ) (name : ι → Option κ) (read : ∀ i, τ → Option (Value i)) (i : ι) :
    Option (Value i) :=
  ((name i).bind given).bind (read i)

def Follows (name : ι → Option κ) (read : ∀ i, τ → Option (Value i))
    (bindings : List (Binding κ τ Value)) : Prop :=
  ∀ binding ∈ bindings,
    name binding.setting = some binding.key ∧ binding.read = read binding.setting

theorem layer_of_follows {given : κ → Option τ} {name : ι → Option κ}
    {read : ∀ i, τ → Option (Value i)} {bindings : List (Binding κ τ Value)}
    (hfollows : Follows name read bindings) (i : ι) :
    layer given bindings i =
      if i ∈ bindings.map Binding.setting then named given name read i else none := by
  induction bindings with
  | nil => rfl
  | cons binding bindings ih =>
      obtain ⟨hbinding, hrest⟩ := List.forall_mem_cons.mp hfollows
      rw [layer, ih hrest, Binding.value, List.map_cons]
      by_cases hi : binding.setting = i
      · subst hi
        have hvalue : (given binding.key).bind binding.read =
            named given name read binding.setting := by
          rw [named, hbinding.1, Option.bind_some, hbinding.2]
        rw [if_pos List.mem_cons_self, dif_pos rfl]
        split
        · rw [hvalue, Option.or_self]
        · rw [hvalue, Option.none_or]
      · rw [dif_neg hi, Option.or_none]
        simp only [List.mem_cons, Ne.symm hi, false_or]

theorem assignAll_apply {given : κ → Option τ} {bindings : List (Binding κ τ Value)}
    {config config' : ∀ i, Value i} (h : assignAll given bindings config = some config') (i : ι) :
    config' i = (layer given bindings i).getD (config i) := by
  induction bindings generalizing config with
  | nil =>
      cases h
      rfl
  | cons binding bindings ih =>
      rw [assignAll, List.foldlM_cons] at h
      obtain ⟨next, hfirst, hrest⟩ := Option.bind_eq_some_iff.mp h
      rw [ih hrest, Binding.assign_apply hfirst, layer]
      cases layer given bindings i <;> rfl

section Ranking

variable {α : Type*} {first second third second' third' : Option α} {default : α}

omit [DecidableEq ι] in
/-- The third of three sources is put on top of the first, and of the last two only
a part is read.  The rank of the sources is kept where the third is not read or the
others do not disagree with it, and where nothing is read but what would not have
changed the default. -/
theorem getD_eq_ranked_iff (hsecond : second' = none ∨ second' = second)
    (hthird : third' = none ∨ third' = third) :
    third'.getD ((first.or second').getD default) =
        ((first.or second).or third).getD default ↔
      (third' ≠ none → first.or second = none ∨ first.or second = third) ∧
        (third' = none → first = none → second' = none →
          (second.or third).getD default = default) := by
  obtain rfl | rfl := hthird
  · obtain rfl | rfl := hsecond
    · cases first <;> simp [eq_comm]
    · cases first with
      | some v => simp
      | none => cases second' <;> simp [eq_comm]
  · cases hthird : third' with
    | none =>
        obtain rfl | rfl := hsecond
        · cases first <;> simp [eq_comm]
        · cases first with
          | some v => simp
          | none => cases second' <;> simp
    | some v => cases first.or second <;> simp [eq_comm]

end Ranking

end ElioP2P.Library
