import Mathlib.Algebra.Ring.Nat
import Mathlib.Data.List.AList

/-!
# Hash maps and hash sets

An `unordered_map` is an `AList`: a list of entries with distinct keys, whose
order is the iteration order.  An `unordered_set` is a `HashSet`, a list without
duplicates.  The container does not promise any order, so a result that
quantifies over these lists covers every order.
-/

namespace ElioP2P.Library

/-! ## Sets -/

structure HashSet (α : Type*) where
  toList : List α
  nodup : toList.Nodup
  deriving DecidableEq

namespace HashSet

variable {α : Type*}

instance : EmptyCollection (HashSet α) := ⟨⟨[], List.nodup_nil⟩⟩

instance : Membership α (HashSet α) := ⟨fun s a => a ∈ s.toList⟩

@[simp] theorem notMem_empty (a : α) : ¬ a ∈ (∅ : HashSet α) := List.not_mem_nil

variable [DecidableEq α]

instance (a : α) (s : HashSet α) : Decidable (a ∈ s) :=
  inferInstanceAs (Decidable (a ∈ s.toList))

def insert (s : HashSet α) (a : α) : HashSet α := ⟨s.toList.insert a, s.nodup.insert⟩

def erase (s : HashSet α) (a : α) : HashSet α := ⟨s.toList.erase a, s.nodup.erase a⟩

def insertAll (s : HashSet α) (items : List α) : HashSet α := items.foldl insert s

@[simp] theorem mem_insert {s : HashSet α} {a b : α} : b ∈ s.insert a ↔ b = a ∨ b ∈ s :=
  List.mem_insert_iff

@[simp] theorem mem_erase {s : HashSet α} {a b : α} : b ∈ s.erase a ↔ b ≠ a ∧ b ∈ s :=
  s.nodup.mem_erase_iff

def Equiv (s t : HashSet α) : Prop := ∀ a, a ∈ s ↔ a ∈ t

theorem mem_insertAll {s : HashSet α} {items : List α} {b : α} :
    b ∈ s.insertAll items ↔ b ∈ items ∨ b ∈ s := by
  unfold insertAll
  induction items generalizing s with
  | nil => simp
  | cons item items ih =>
      rw [List.foldl_cons, ih]
      simp only [mem_insert, List.mem_cons]
      tauto

end HashSet

/-! ## Maps -/

section Maps

variable {κ : Type*} [DecidableEq κ] {β : Type*} {ι : Type*}

def mapValues (f : κ → β → β) (m : AList fun _ : κ => β) : AList fun _ : κ => β where
  entries := m.entries.map fun e => ⟨e.1, f e.1 e.2⟩
  nodupKeys := by
    have hkeys : (m.entries.map fun e => (⟨e.1, f e.1 e.2⟩ : Sigma fun _ : κ => β)).keys =
        m.entries.keys := by
      simp [List.keys, Function.comp_def]
    rw [List.NodupKeys, hkeys]
    exact m.nodupKeys

omit [DecidableEq κ] in
theorem keys_mapValues (f : κ → β → β) (m : AList fun _ : κ => β) :
    (mapValues f m).keys = m.keys := by
  simp [AList.keys, mapValues, List.keys, Function.comp_def]

theorem length_keys_insert_of_mem {m : AList fun _ : κ => β} {k : κ} (h : k ∈ m) (b : β) :
    (m.insert k b).keys.length = m.keys.length := by
  rw [AList.keys_insert, List.length_cons, List.length_erase_of_mem (AList.mem_keys.mpr h)]
  exact Nat.sub_add_cancel (List.length_pos_of_mem (AList.mem_keys.mpr h))

theorem length_keys_insert_of_notMem {m : AList fun _ : κ => β} {k : κ} (h : k ∉ m) (b : β) :
    (m.insert k b).keys.length = m.keys.length + 1 := by
  rw [AList.keys_insert, List.length_cons, List.erase_of_not_mem (mt AList.mem_keys.mp h)]

theorem lookup_mapValues (f : κ → β → β) (m : AList fun _ : κ => β) (k : κ) :
    (mapValues f m).lookup k = (m.lookup k).map (f k) := by
  obtain ⟨entries, hnodup⟩ := m
  change (entries.map fun e => (⟨e.1, f e.1 e.2⟩ : Sigma fun _ : κ => β)).dlookup k =
    (entries.dlookup k).map (f k)
  clear hnodup
  induction entries with
  | nil => rfl
  | cons e entries ih =>
      obtain ⟨a, b⟩ := e
      by_cases hk : k = a
      · subst hk
        simp
      · rw [List.map_cons, List.dlookup_cons_ne _ _ hk, List.dlookup_cons_ne _ _ hk, ih]

theorem getElem?_findIdx_keys {m : AList fun _ : κ => β} {k : κ} {b : β}
    (h : m.lookup k = some b) :
    m.entries[m.keys.findIdx fun key => decide (key = k)]? = some ⟨k, b⟩ := by
  obtain ⟨entries, hnodup⟩ := m
  change entries.dlookup k = some b at h
  change entries[entries.keys.findIdx fun key => decide (key = k)]? = some ⟨k, b⟩
  clear hnodup
  induction entries with
  | nil => simp at h
  | cons e entries ih =>
      obtain ⟨a, b'⟩ := e
      by_cases hk : a = k
      · subst hk
        rw [List.dlookup_cons_eq] at h
        cases h
        simp [List.findIdx_cons]
      · rw [List.dlookup_cons_ne _ _ (Ne.symm hk)] at h
        simpa [List.findIdx_cons, hk] using ih h

theorem isSome_lookup_foldl_insert (f : ι → κ) (g : ι → β) (items : List ι)
    (m : AList fun _ : κ => β) (k : κ) :
    ((items.foldl (fun m item => m.insert (f item) (g item)) m).lookup k).isSome = true ↔
      (m.lookup k).isSome = true ∨ ∃ item ∈ items, f item = k := by
  induction items generalizing m with
  | nil => simp
  | cons item items ih =>
      rw [List.foldl_cons, ih]
      by_cases hk : f item = k
      · subst hk
        simp
      · rw [AList.lookup_insert_ne (Ne.symm hk)]
        simp [hk]

theorem exists_of_lookup_foldl_insert {f : ι → κ} {g : ι → β} {items : List ι}
    {m : AList fun _ : κ => β} {k : κ} {b : β}
    (h : (items.foldl (fun m item => m.insert (f item) (g item)) m).lookup k = some b) :
    m.lookup k = some b ∨ ∃ item ∈ items, f item = k ∧ g item = b := by
  induction items generalizing m with
  | nil => exact Or.inl h
  | cons item items ih =>
      rcases ih h with hold | ⟨other, hother, hbound⟩
      · by_cases hk : k = f item
        · subst hk
          rw [AList.lookup_insert, Option.some.injEq] at hold
          exact Or.inr ⟨item, List.mem_cons_self, rfl, hold⟩
        · rw [AList.lookup_insert_ne hk] at hold
          exact Or.inl hold
      · exact Or.inr ⟨other, List.mem_cons_of_mem _ hother, hbound⟩

theorem lookup_foldl_insert {γ : Type*} (g : κ → β → γ)
    {entries : List (Sigma fun _ : κ => β)} (hnodup : entries.NodupKeys)
    (m : AList fun _ : κ => γ) (k : κ) :
    (entries.foldl (fun m e => m.insert e.1 (g e.1 e.2)) m).lookup k =
      ((entries.dlookup k).map (g k)).or (m.lookup k) := by
  induction entries generalizing m with
  | nil => simp
  | cons e entries ih =>
      obtain ⟨a, b⟩ := e
      obtain ⟨hfresh, hrest⟩ := List.nodupKeys_cons.mp hnodup
      rw [List.foldl_cons, ih hrest]
      by_cases hk : k = a
      · subst hk
        rw [List.dlookup_eq_none.mpr hfresh]
        simp
      · rw [AList.lookup_insert_ne hk, List.dlookup_cons_ne _ _ hk]

theorem entries_foldl_insert {entries : List (Sigma fun _ : κ => β)} (hnodup : entries.NodupKeys)
    (m : AList fun _ : κ => β) (hfresh : ∀ e ∈ entries, e.1 ∉ m) :
    (entries.foldl (fun m e => m.insert e.1 e.2) m).entries = entries.reverse ++ m.entries := by
  induction entries generalizing m with
  | nil => rfl
  | cons e entries ih =>
      obtain ⟨hkey, hrest⟩ := List.nodupKeys_cons.mp hnodup
      have hnew : ∀ e' ∈ entries, e'.1 ∉ m.insert e.1 e.2 := by
        intro e' he'
        rw [AList.mem_insert]
        rintro (heq | hmem)
        · exact hkey (heq ▸ List.mem_keys_of_mem he')
        · exact hfresh e' (List.mem_cons_of_mem e he') hmem
      rw [List.foldl_cons, ih hrest _ hnew,
        AList.entries_insert_of_notMem (hfresh e List.mem_cons_self), List.reverse_cons,
        List.append_assoc]
      rfl

theorem lookup_foldl_insert_entries {γ : Type*} (g : κ → β → γ) (m : AList fun _ : κ => β)
    (k : κ) :
    (m.entries.foldl (fun m e => m.insert e.1 (g e.1 e.2)) (∅ : AList fun _ : κ => γ)).lookup k =
      (m.lookup k).map (g k) := by
  rw [lookup_foldl_insert g m.nodupKeys, AList.lookup_empty, Option.or_none]
  rfl

def sumValues (f : β → Nat) (m : AList fun _ : κ => β) : Nat :=
  (m.entries.map fun e => f e.2).sum

omit [DecidableEq κ] in
theorem sumValues_mapValues {f : β → Nat} {g : κ → β → β} (hg : ∀ k b, f (g k b) = f b)
    (m : AList fun _ : κ => β) : sumValues f (mapValues g m) = sumValues f m := by
  simp [sumValues, mapValues, Function.comp_def, hg]

theorem sum_kerase {f : β → Nat} {entries : List (Sigma fun _ : κ => β)} {a : κ} {b : β}
    (h : entries.dlookup a = some b) :
    ((entries.kerase a).map fun e => f e.2).sum + f b = (entries.map fun e => f e.2).sum := by
  induction entries with
  | nil => simp at h
  | cons e entries ih =>
      obtain ⟨k, v⟩ := e
      by_cases hk : a = k
      · subst hk
        rw [List.dlookup_cons_eq] at h
        cases h
        have herase : (⟨a, b⟩ :: entries : List (Sigma fun _ : κ => β)).kerase a = entries :=
          List.kerase_cons_eq rfl
        rw [herase, List.map_cons, List.sum_cons, Nat.add_comm]
      · rw [List.dlookup_cons_ne _ _ hk] at h
        have hrest := ih h
        rw [List.kerase_cons_ne hk]
        simp only [List.map_cons, List.sum_cons]
        omega

theorem sumValues_erase {f : β → Nat} {m : AList fun _ : κ => β} {a : κ} {b : β}
    (h : m.lookup a = some b) : sumValues f (m.erase a) + f b = sumValues f m :=
  sum_kerase h

theorem sumValues_insert_of_lookup {f : β → Nat} {m : AList fun _ : κ => β} {a : κ} {b b' : β}
    (h : m.lookup a = some b) : sumValues f (m.insert a b') + f b = sumValues f m + f b' := by
  have herase := sumValues_erase (f := f) h
  have hinsert : sumValues f (m.insert a b') = f b' + sumValues f (m.erase a) := by
    rw [sumValues, AList.entries_insert, List.map_cons, List.sum_cons]
    rfl
  omega

theorem sumValues_insert_of_notMem {f : β → Nat} {m : AList fun _ : κ => β} {a : κ} {b : β}
    (h : a ∉ m) : sumValues f (m.insert a b) = sumValues f m + f b := by
  rw [sumValues, AList.entries_insert_of_notMem h, List.map_cons, List.sum_cons, Nat.add_comm]
  rfl

end Maps

/-! ## Maps of sets -/

section MultiMaps

variable {κ : Type*} [DecidableEq κ] {α : Type*}

def MemAt (m : AList fun _ : κ => HashSet α) (key : κ) (item : α) : Prop :=
  item ∈ (m.lookup key).getD ∅

theorem memAt_iff_entries {m : AList fun _ : κ => HashSet α} {k : κ} {a : α} :
    MemAt m k a ↔ ∃ e ∈ m.entries, e.1 = k ∧ a ∈ e.2 := by
  unfold MemAt
  constructor
  · intro h
    cases hlookup : m.lookup k with
    | none => simp [hlookup] at h
    | some items =>
        rw [hlookup] at h
        exact ⟨⟨k, items⟩, AList.mem_lookup_iff.mp hlookup, rfl, h⟩
  · rintro ⟨⟨key, items⟩, hmem, rfl, ha⟩
    rw [Option.mem_def.mp (AList.mem_lookup_iff.mpr hmem)]
    exact ha

variable [DecidableEq α]

/-- `m[key].insert(item)`: the set is created when the key is new. -/
def insertAt (m : AList fun _ : κ => HashSet α) (key : κ) (item : α) :
    AList fun _ : κ => HashSet α :=
  m.insert key (((m.lookup key).getD ∅).insert item)

instance (m : AList fun _ : κ => HashSet α) (key : κ) (item : α) :
    Decidable (MemAt m key item) :=
  inferInstanceAs (Decidable (_ ∈ _))

theorem memAt_insertAt {m : AList fun _ : κ => HashSet α} {key k : κ} {item a : α} :
    MemAt (insertAt m key item) k a ↔ MemAt m k a ∨ (k = key ∧ a = item) := by
  unfold MemAt insertAt
  by_cases hk : k = key
  · subst hk
    simp only [AList.lookup_insert, Option.getD_some, HashSet.mem_insert, true_and]
    tauto
  · rw [AList.lookup_insert_ne hk]
    simp [hk]

theorem memAt_foldl_insertAt {m : AList fun _ : κ => HashSet α} {keys : List κ} {k : κ}
    {item a : α} :
    MemAt (keys.foldl (fun m key => insertAt m key item) m) k a ↔
      MemAt m k a ∨ (k ∈ keys ∧ a = item) := by
  induction keys generalizing m with
  | nil => simp
  | cons key keys ih =>
      rw [List.foldl_cons, ih, memAt_insertAt]
      simp only [List.mem_cons]
      tauto

theorem isSome_lookup_foldl_insertAt {m : AList fun _ : κ => HashSet α} {keys : List κ} {k : κ}
    {item : α} :
    ((keys.foldl (fun m key => insertAt m key item) m).lookup k).isSome = true ↔
      (m.lookup k).isSome = true ∨ k ∈ keys := by
  induction keys generalizing m with
  | nil => simp
  | cons key keys ih =>
      rw [List.foldl_cons, ih, insertAt]
      by_cases hk : k = key
      · subst hk
        simp
      · rw [AList.lookup_insert_ne hk]
        simp [hk]

/-- `m[key].erase(item)` if the key is there; a set that becomes empty is
dropped. -/
def eraseAt (m : AList fun _ : κ => HashSet α) (key : κ) (item : α) :
    AList fun _ : κ => HashSet α :=
  match m.lookup key with
  | some items =>
      if (items.erase item).toList.isEmpty then m.erase key else m.insert key (items.erase item)
  | none => m

theorem memAt_eraseAt {m : AList fun _ : κ => HashSet α} {key k : κ} {item a : α} :
    MemAt (eraseAt m key item) k a ↔ MemAt m k a ∧ ¬ (k = key ∧ a = item) := by
  unfold eraseAt
  cases hlookup : m.lookup key with
  | none =>
      have habsent : MemAt m k a → k ≠ key := by
        rintro hmem rfl
        simp [MemAt, hlookup] at hmem
      simp only
      tauto
  | some items =>
      by_cases hk : k = key
      · subst hk
        have hbefore : MemAt m k a ↔ a ∈ items := by simp [MemAt, hlookup]
        simp only
        split
        · rename_i hempty
          have hnone : ¬ a ∈ items.erase item := by
            rw [List.isEmpty_iff] at hempty
            change ¬ a ∈ (items.erase item).toList
            simp [hempty]
          rw [HashSet.mem_erase] at hnone
          rw [hbefore]
          simp only [MemAt, AList.lookup_erase, Option.getD_none, HashSet.notMem_empty, true_and]
          tauto
        · rw [hbefore]
          simp only [MemAt, AList.lookup_insert, Option.getD_some, HashSet.mem_erase, true_and]
          tauto
      · have hother : MemAt (if (items.erase item).toList.isEmpty then m.erase key
            else m.insert key (items.erase item)) k a ↔ MemAt m k a := by
          unfold MemAt
          split
          · rw [AList.lookup_erase_ne hk]
          · rw [AList.lookup_insert_ne hk]
        simp only [hother, hk, false_and, not_false_eq_true, and_true]

theorem memAt_foldl_eraseAt {m : AList fun _ : κ => HashSet α} {keys : List κ} {k : κ}
    {item a : α} :
    MemAt (keys.foldl (fun m key => eraseAt m key item) m) k a ↔
      MemAt m k a ∧ ¬ (k ∈ keys ∧ a = item) := by
  induction keys generalizing m with
  | nil => simp
  | cons key keys ih =>
      rw [List.foldl_cons, ih, memAt_eraseAt]
      simp only [List.mem_cons]
      tauto

def NoEmptySets (m : AList fun _ : κ => HashSet α) : Prop :=
  ∀ key items, m.lookup key = some items → items.toList ≠ []

theorem noEmptySets_insertAt {m : AList fun _ : κ => HashSet α} (h : NoEmptySets m) (key : κ)
    (item : α) : NoEmptySets (insertAt m key item) := by
  intro k items hitems
  by_cases hk : k = key
  · subst hk
    rw [insertAt, AList.lookup_insert, Option.some.injEq] at hitems
    have hmem : item ∈ items := by
      rw [← hitems]
      exact HashSet.mem_insert.mpr (Or.inl rfl)
    exact List.ne_nil_of_mem hmem
  · rw [insertAt, AList.lookup_insert_ne hk] at hitems
    exact h k items hitems

theorem noEmptySets_eraseAt {m : AList fun _ : κ => HashSet α} (h : NoEmptySets m) (key : κ)
    (item : α) : NoEmptySets (eraseAt m key item) := by
  intro k items hitems
  unfold eraseAt at hitems
  split at hitems
  · rename_i old hold
    by_cases hk : k = key
    · subst hk
      split at hitems
      · simp at hitems
      · rename_i hleft
        rw [AList.lookup_insert, Option.some.injEq] at hitems
        rw [← hitems]
        simpa using hleft
    · split at hitems
      · rw [AList.lookup_erase_ne hk] at hitems
        exact h k items hitems
      · rw [AList.lookup_insert_ne hk] at hitems
        exact h k items hitems
  · exact h k items hitems

omit [DecidableEq α] in
theorem noEmptySets_foldl {f : (AList fun _ : κ => HashSet α) → κ → AList fun _ : κ => HashSet α}
    (hf : ∀ m key, NoEmptySets m → NoEmptySets (f m key)) {m : AList fun _ : κ => HashSet α}
    (h : NoEmptySets m) (keys : List κ) : NoEmptySets (keys.foldl f m) := by
  induction keys generalizing m with
  | nil => exact h
  | cons key keys ih => exact ih (hf m key h)

end MultiMaps

end ElioP2P.Library
