import Mathlib.Data.List.Induction
import Mathlib.Data.List.Nodup
import Mathlib.Data.List.Perm.Basic

/-!
# Ordered maps

A `std::map` is a list of bindings in strictly increasing order of their keys.
Assigning to a key replaces what was bound to it, so after a sequence of
assignments every key has the last value it was given, in whatever order the
keys came.
-/

namespace ElioP2P.Library

/-! ## The last of several values -/

section LastValue

variable {κ β : Type*} [DecidableEq κ]

def lastValue (pairs : List (κ × β)) (key : κ) : Option β :=
  (pairs.filterMap fun pair => if pair.1 = key then some pair.2 else none).getLast?

@[simp] theorem lastValue_nil (key : κ) : lastValue ([] : List (κ × β)) key = none := rfl

theorem lastValue_append_singleton (pairs : List (κ × β)) (pair : κ × β) (key : κ) :
    lastValue (pairs ++ [pair]) key =
      if pair.1 = key then some pair.2 else lastValue pairs key := by
  unfold lastValue
  rw [List.filterMap_append]
  by_cases h : pair.1 = key
  · simp [h]
  · simp [h]

theorem lastValue_append (pairs pairs' : List (κ × β)) (key : κ) :
    lastValue (pairs ++ pairs') key = (lastValue pairs' key).or (lastValue pairs key) := by
  rw [lastValue, List.filterMap_append, List.getLast?_append]
  rfl

theorem mem_of_lastValue {pairs : List (κ × β)} {key : κ} {value : β}
    (h : lastValue pairs key = some value) : (key, value) ∈ pairs := by
  have hmem := List.mem_of_getLast? h
  obtain ⟨pair, hpair, hvalue⟩ := List.mem_filterMap.mp hmem
  split at hvalue
  · rename_i hkey
    cases hvalue
    rwa [← hkey]
  · cases hvalue

theorem lastValue_eq_none_iff {pairs : List (κ × β)} {key : κ} :
    lastValue pairs key = none ↔ key ∉ pairs.map Prod.fst := by
  rw [lastValue, List.getLast?_eq_none_iff, List.filterMap_eq_nil_iff]
  constructor
  · intro h hmem
    obtain ⟨pair, hpair, hkey⟩ := List.mem_map.mp hmem
    have hnone := h pair hpair
    rw [if_pos hkey] at hnone
    cases hnone
  · intro h pair hpair
    refine if_neg ?_
    rintro rfl
    exact h (List.mem_map_of_mem hpair)

theorem lastValue_eq_some_iff {pairs : List (κ × β)} (hnodup : (pairs.map Prod.fst).Nodup)
    {key : κ} {value : β} : lastValue pairs key = some value ↔ (key, value) ∈ pairs := by
  refine ⟨mem_of_lastValue, fun hmem => ?_⟩
  cases hlast : lastValue pairs key with
  | none => exact absurd (List.mem_map_of_mem hmem) (lastValue_eq_none_iff.mp hlast)
  | some value' =>
      have heq := List.inj_on_of_nodup_map hnodup hmem (mem_of_lastValue hlast) rfl
      rw [(Prod.mk.inj heq).2]

theorem lastValue_map {γ κ' : Type*} [DecidableEq κ'] {f : κ → κ'} (hf : Function.Injective f)
    (g : β → γ) (pairs : List (κ × β)) (key : κ) :
    lastValue (pairs.map fun pair => (f pair.1, g pair.2)) (f key) =
      (lastValue pairs key).map g := by
  induction pairs using List.reverseRecOn with
  | nil => rfl
  | append_singleton pairs pair ih =>
      rw [List.map_append, List.map_singleton, lastValue_append_singleton,
        lastValue_append_singleton, ih]
      simp only [hf.eq_iff]
      split <;> rfl

end LastValue

/-! ## Lists in increasing order -/

theorem pairwise_iff_of_increasing {κ : Type*} [LT κ] [LE κ] [Std.IsLinearOrder κ]
    [Std.LawfulOrderLT κ] {R : κ → κ → Prop} {keys : List κ}
    (hincreasing : keys.Pairwise (· < ·)) :
    keys.Pairwise R ↔ ∀ a ∈ keys, ∀ b ∈ keys, a < b → R a b := by
  induction keys with
  | nil => simp
  | cons key keys ih =>
      obtain ⟨hfirst, hrest⟩ := List.pairwise_cons.mp hincreasing
      rw [List.pairwise_cons, ih hrest]
      constructor
      · rintro ⟨hkey, hkeys⟩ a ha b hb hlt
        rcases List.mem_cons.mp ha with rfl | hakeys
        · rcases List.mem_cons.mp hb with rfl | hbkeys
          · exact absurd hlt Std.lt_irrefl
          · exact hkey b hbkeys
        · rcases List.mem_cons.mp hb with rfl | hbkeys
          · exact absurd (Std.lt_trans hlt (hfirst a hakeys)) Std.lt_irrefl
          · exact hkeys a hakeys b hbkeys hlt
      · intro h
        refine ⟨fun b hb => ?_, fun a ha b hb => ?_⟩
        · exact h key List.mem_cons_self b (List.mem_cons_of_mem key hb) (hfirst b hb)
        · exact h a (List.mem_cons_of_mem key ha) b (List.mem_cons_of_mem key hb)

/-! ## Maps -/

structure OrderedMap (κ β : Type*) [LT κ] where
  entries : List (κ × β)
  sorted : entries.Pairwise fun a b => a.1 < b.1

section OrderedMap

variable {κ β : Type*} [LT κ] [DecidableLT κ] [DecidableEq κ]

def assignEntry (key : κ) (value : β) : List (κ × β) → List (κ × β)
  | [] => [(key, value)]
  | entry :: entries =>
      if key < entry.1 then (key, value) :: entry :: entries
      else if key = entry.1 then (key, value) :: entries
      else entry :: assignEntry key value entries

variable [LE κ] [Std.IsLinearOrder κ] [Std.LawfulOrderLT κ]

theorem mem_assignEntry_iff {key : κ} {value : β} {entries : List (κ × β)}
    (hsorted : entries.Pairwise fun a b => a.1 < b.1) {entry : κ × β} :
    entry ∈ assignEntry key value entries ↔
      entry = (key, value) ∨ (entry ∈ entries ∧ entry.1 ≠ key) := by
  induction entries with
  | nil => simp [assignEntry]
  | cons first entries ih =>
      obtain ⟨hfirst, hrest⟩ := List.pairwise_cons.mp hsorted
      have habove : key < first.1 ∨ key = first.1 →
          (entry ∈ entries ↔ entry ∈ entries ∧ entry.1 ≠ key) := by
        intro hkey
        refine ⟨fun hmem => ⟨hmem, ?_⟩, And.left⟩
        have hlt := hfirst entry hmem
        rintro rfl
        rcases hkey with hkey | hkey
        · exact Std.lt_irrefl (Std.lt_trans hkey hlt)
        · exact Std.lt_irrefl (hkey ▸ hlt)
      rw [assignEntry]
      split_ifs with hlt heq
      · have hne : first.1 ≠ key := fun h => Std.lt_irrefl (h ▸ hlt)
        have hmem := habove (.inl hlt)
        simp only [List.mem_cons, or_and_right, ← hmem]
        grind
      · have hmem := habove (.inr heq)
        simp only [List.mem_cons, or_and_right, ← hmem]
        grind
      · simp only [List.mem_cons, ih hrest]
        grind

theorem sorted_assignEntry (key : κ) (value : β) {entries : List (κ × β)}
    (hsorted : entries.Pairwise fun a b => a.1 < b.1) :
    (assignEntry key value entries).Pairwise fun a b => a.1 < b.1 := by
  induction entries with
  | nil => simp [assignEntry]
  | cons first entries ih =>
      obtain ⟨hfirst, hrest⟩ := List.pairwise_cons.mp hsorted
      rw [assignEntry]
      split_ifs with hlt heq
      · refine List.pairwise_cons.mpr ⟨fun entry hmem => ?_, hsorted⟩
        rcases List.mem_cons.mp hmem with rfl | hmem
        · exact hlt
        · exact Std.lt_trans hlt (hfirst entry hmem)
      · refine List.pairwise_cons.mpr ⟨fun entry hmem => ?_, hrest⟩
        rw [heq]
        exact hfirst entry hmem
      · refine List.pairwise_cons.mpr ⟨fun entry hmem => ?_, ih hrest⟩
        rcases (mem_assignEntry_iff hrest).mp hmem with rfl | ⟨hmem, -⟩
        · grind
        · exact hfirst entry hmem

namespace OrderedMap

def empty : OrderedMap κ β := ⟨[], List.Pairwise.nil⟩

/-- `m[key] = value` -/
def assign (m : OrderedMap κ β) (key : κ) (value : β) : OrderedMap κ β :=
  ⟨assignEntry key value m.entries, sorted_assignEntry key value m.sorted⟩

def assignAll (m : OrderedMap κ β) (pairs : List (κ × β)) : OrderedMap κ β :=
  pairs.foldl (fun m pair => m.assign pair.1 pair.2) m

omit [DecidableLT κ] [DecidableEq κ] in
theorem ext_mem {m m' : OrderedMap κ β} (h : ∀ entry, entry ∈ m.entries ↔ entry ∈ m'.entries) :
    m = m' := by
  obtain ⟨entries, hsorted⟩ := m
  obtain ⟨entries', hsorted'⟩ := m'
  have hnodup : ∀ {l : List (κ × β)}, (l.Pairwise fun a b => a.1 < b.1) → l.Nodup :=
    fun hl => hl.imp fun {a b} (hlt : a.1 < b.1) (heq : a = b) => Std.lt_irrefl (heq ▸ hlt)
  have hperm : entries.Perm entries' :=
    (List.perm_ext_iff_of_nodup (hnodup hsorted) (hnodup hsorted')).mpr h
  have heq := hperm.eq_of_pairwise (fun a b _ _ hab hba =>
    absurd (Std.lt_trans hab hba) Std.lt_irrefl) hsorted hsorted'
  subst heq
  rfl

omit [DecidableLT κ] [DecidableEq κ] [Std.IsLinearOrder κ] in
theorem nodup_keys (m : OrderedMap κ β) : (m.entries.map Prod.fst).Nodup :=
  List.pairwise_map.mpr
    (m.sorted.imp fun {a b} (hlt : a.1 < b.1) (heq : a.1 = b.1) => Std.lt_irrefl (heq ▸ hlt))

theorem mem_assignAll_iff (pairs : List (κ × β)) {entry : κ × β} :
    entry ∈ (empty.assignAll pairs).entries ↔ lastValue pairs entry.1 = some entry.2 := by
  induction pairs using List.reverseRecOn with
  | nil => simp [assignAll, empty]
  | append_singleton pairs pair ih =>
      rw [lastValue_append_singleton, assignAll, List.foldl_append]
      refine (mem_assignEntry_iff (OrderedMap.sorted _)).trans ?_
      change entry = (pair.1, pair.2) ∨ (entry ∈ (empty.assignAll pairs).entries ∧
        entry.1 ≠ pair.1) ↔ _
      rw [ih, Prod.ext_iff]
      split_ifs with hkey
      · simp [hkey, eq_comm]
      · simp [Ne.symm hkey]

theorem mem_keys_assignAll_iff (pairs : List (κ × β)) {key : κ} :
    key ∈ (empty.assignAll pairs).entries.map Prod.fst ↔ key ∈ pairs.map Prod.fst := by
  have hkey : key ∈ (empty.assignAll pairs).entries.map Prod.fst ↔
      ∃ value, (key, value) ∈ (empty.assignAll pairs).entries := by simp
  rw [hkey, ← not_iff_not, ← lastValue_eq_none_iff]
  simp only [mem_assignAll_iff, not_exists, Option.eq_none_iff_forall_ne_some]

theorem assignAll_perm {pairs pairs' : List (κ × β)} (hnodup : (pairs.map Prod.fst).Nodup)
    (hperm : pairs.Perm pairs') :
    (empty.assignAll pairs : OrderedMap κ β) = empty.assignAll pairs' := by
  refine ext_mem fun entry => ?_
  have hnodup' : (pairs'.map Prod.fst).Nodup := (hperm.map Prod.fst).nodup_iff.mp hnodup
  rw [mem_assignAll_iff, mem_assignAll_iff, lastValue_eq_some_iff hnodup,
    lastValue_eq_some_iff hnodup', hperm.mem_iff]

end OrderedMap

end OrderedMap

end ElioP2P.Library
