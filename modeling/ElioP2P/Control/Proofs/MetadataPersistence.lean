import ElioP2P.Control.Metadata

/-!
# Saving and loading the metadata manager

The file holds the entries of the index, each with the chunk id that stands in
it, and nothing else.  An entry made by `update_chunk_location` has an empty
chunk id and is skipped when the file is loaded; the known peers are gathered
from the entries, so peers that no entry lists any more are forgotten and peers
that only `set_chunk_metadata` has brought in appear.
-/

namespace ElioP2P.Control

open ElioP2P.Library

structure ChunkIndexEntry.Same (a b : ChunkIndexEntry) : Prop where
  fields : { a with peerIds := ∅ } = { b with peerIds := ∅ }
  peers : a.peerIds.Equiv b.peerIds

namespace MetadataManager

structure Same (m m' : MetadataManager) : Prop where
  chunks : ∀ chunkId,
    Option.Rel ChunkIndexEntry.Same (m.chunks.lookup chunkId) (m'.chunks.lookup chunkId)
  peers : m.peers.Equiv m'.peers

def Restored (m : MetadataManager) : Prop :=
  ∀ (text : JsonText) (path : DiskPath) (fs : FileSystem), text.Lossless m.toJson →
    fs.Faultless → (m.saveToFile text path fs).1 = true ∧
      ∃ m', new.loadFromFile text path (m.saveToFile text path fs).2 = (true, m') ∧ m.Same m'

/-! ## What is loaded -/

def reread (entry : ChunkIndexEntry) : ChunkIndexEntry :=
  { entry with peerIds := (∅ : HashSet Bytes).insertAll entry.peerIds.toList }

def restore (m : MetadataManager) (entry : ChunkIndexEntry) : MetadataManager where
  chunks := if entry.chunkId.isEmpty then m.chunks
    else m.chunks.insert entry.chunkId (reread entry)
  peers := m.peers.insertAll entry.peerIds.toList

def reloaded (m : MetadataManager) : MetadataManager :=
  m.chunks.entries.foldl (fun m e => m.restore e.2) new

theorem readEntry_entryToJson (entry : ChunkIndexEntry) :
    readEntry (entryToJson entry) =
      some ({ entry with peerIds := ∅ }, .array (entry.peerIds.toList.map .string)) := rfl

theorem loadPeers_strings (ps : List Bytes) (entry : ChunkIndexEntry) (peers : HashSet Bytes) :
    loadPeers (ps.map .string) entry peers =
      (true, { entry with peerIds := entry.peerIds.insertAll ps }, peers.insertAll ps) := by
  induction ps generalizing entry peers with
  | nil => rfl
  | cons p ps ih => exact ih _ _

theorem loadItem_entryToJson (m : MetadataManager) (entry : ChunkIndexEntry) :
    m.loadItem (entryToJson entry) = (true, m.restore entry) := by
  unfold loadItem
  rw [readEntry_entryToJson]
  simp only [Json.items, loadPeers_strings, restore]
  split
  · rfl
  · rfl

theorem loadItems_entries (entries : List (Sigma fun _ : Bytes => ChunkIndexEntry))
    (m : MetadataManager) :
    loadItems (entries.map fun e => entryToJson e.2) m =
      (true, entries.foldl (fun m e => m.restore e.2) m) := by
  induction entries generalizing m with
  | nil => rfl
  | cons e entries ih =>
      rw [List.map_cons, loadItems, loadItem_entryToJson]
      exact ih _

theorem saveToFile_read {text : JsonText} {m : MetadataManager} {fs : FileSystem} (path : DiskPath)
    (htext : text.Lossless m.toJson) (hfs : fs.Faultless) :
    (m.saveToFile text path fs).1 = true ∧ ∃ bytes,
      (m.saveToFile text path fs).2.read path = some bytes ∧ text.parse bytes = some m.toJson := by
  obtain ⟨bytes, hdump, hparse⟩ := Option.bind_eq_some_iff.mp htext
  obtain ⟨fs', hrename, hread⟩ := FileSystem.exists_rename path
    (hfs.read_write_same { path with filename := path.filename ++ ascii ".tmp" } bytes)
  simp only [saveToFile, hdump, hfs.write_opens, if_true, hrename]
  exact ⟨trivial, bytes, hread, hparse⟩

theorem load_saved {text : JsonText} {m : MetadataManager} {fs : FileSystem} (path : DiskPath)
    (htext : text.Lossless m.toJson) (hfs : fs.Faultless) :
    new.loadFromFile text path (m.saveToFile text path fs).2 = (true, m.reloaded) := by
  obtain ⟨-, bytes, hread, hparse⟩ := saveToFile_read path htext hfs
  simp only [loadFromFile, hread, load, hparse]
  exact loadItems_entries m.chunks.entries new

theorem lossless_constant (j : Json) :
    JsonText.Lossless ⟨fun _ => some [], fun _ => some j⟩ j := rfl

theorem restored_iff_same (m : MetadataManager) : m.Restored ↔ m.Same m.reloaded := by
  constructor
  · intro h
    obtain ⟨-, m', hload, hsame⟩ := h _ ⟨[], []⟩ .empty (lossless_constant m.toJson)
      FileSystem.faultless_empty
    rw [load_saved _ (lossless_constant m.toJson) FileSystem.faultless_empty] at hload
    cases hload
    exact hsame
  · intro hsame text path fs htext hfs
    exact ⟨(saveToFile_read path htext hfs).1, m.reloaded, load_saved path htext hfs, hsame⟩

/-! ## The entries and the peers that come back -/

def Keyed (m : MetadataManager) : Prop :=
  ∀ chunkId entry, m.chunks.lookup chunkId = some entry →
    entry.chunkId = chunkId ∨ entry.chunkId = []

theorem same_reread (entry : ChunkIndexEntry) : entry.Same (reread entry) where
  fields := rfl
  peers peerId := by
    rw [reread, HashSet.mem_insertAll, or_iff_left (HashSet.notMem_empty peerId)]
    exact Iff.rfl

theorem chunks_restore_named (m : MetadataManager) {entry : ChunkIndexEntry}
    (h : entry.chunkId.isEmpty = false) :
    (m.restore entry).chunks = m.chunks.insert entry.chunkId (reread entry) := by
  simp only [restore, h, Bool.false_eq_true, if_false]

theorem lookup_foldl_restore {entries : List (Sigma fun _ : Bytes => ChunkIndexEntry)}
    (hnodup : entries.NodupKeys)
    (hkeyed : ∀ e ∈ entries, e.2.chunkId = e.1 ∨ e.2.chunkId = []) (m : MetadataManager)
    (chunkId : Bytes) :
    (entries.foldl (fun m e => m.restore e.2) m).chunks.lookup chunkId =
      (((entries.dlookup chunkId).filter fun entry => !entry.chunkId.isEmpty).map reread).or
        (m.chunks.lookup chunkId) := by
  induction entries generalizing m with
  | nil => simp
  | cons e entries ih =>
      obtain ⟨key, entry⟩ := e
      obtain ⟨hfresh, hrest⟩ := List.nodupKeys_cons.mp hnodup
      rw [List.foldl_cons, ih hrest fun e he => hkeyed e (List.mem_cons_of_mem _ he)]
      by_cases hk : chunkId = key
      · subst hk
        rw [List.dlookup_eq_none.mpr hfresh, List.dlookup_cons_eq, Option.filter_some]
        cases hempty : entry.chunkId.isEmpty with
        | true => simp [restore, hempty]
        | false =>
            have hname : entry.chunkId = chunkId :=
              (hkeyed ⟨chunkId, entry⟩ List.mem_cons_self).resolve_right
                (List.isEmpty_eq_false_iff.mp hempty)
            rw [chunks_restore_named m hempty, hname, AList.lookup_insert]
            rfl
      · rw [List.dlookup_cons_ne _ _ hk]
        congr 1
        cases hempty : entry.chunkId.isEmpty with
        | true => simp [restore, hempty]
        | false =>
            have hname : entry.chunkId = key :=
              (hkeyed ⟨key, entry⟩ List.mem_cons_self).resolve_right
                (List.isEmpty_eq_false_iff.mp hempty)
            rw [chunks_restore_named m hempty, hname, AList.lookup_insert_ne hk]

theorem mem_peers_foldl_restore (entries : List (Sigma fun _ : Bytes => ChunkIndexEntry))
    (m : MetadataManager) (peerId : Bytes) :
    peerId ∈ (entries.foldl (fun m e => m.restore e.2) m).peers ↔
      peerId ∈ m.peers ∨ ∃ e ∈ entries, peerId ∈ e.2.peerIds := by
  induction entries generalizing m with
  | nil => simp
  | cons e entries ih =>
      have hmem : peerId ∈ e.2.peerIds ↔ peerId ∈ e.2.peerIds.toList := Iff.rfl
      rw [List.foldl_cons, ih]
      simp only [restore, HashSet.mem_insertAll, List.exists_mem_cons_iff, hmem]
      tauto

/-- An entry other than that of `chunkId` lists the peer. -/
def ListedElsewhere (m : MetadataManager) (chunkId peerId : Bytes) : Prop :=
  ∃ other entry, other ≠ chunkId ∧ m.chunks.lookup other = some entry ∧ peerId ∈ entry.peerIds

/-- Every entry carries its key, and the known peers are those that an entry
lists. -/
structure Complete (m : MetadataManager) : Prop where
  named : ∀ chunkId entry, m.chunks.lookup chunkId = some entry →
    entry.chunkId = chunkId ∧ chunkId ≠ []
  peers : ∀ peerId, peerId ∈ m.peers ↔
    ∃ chunkId entry, m.chunks.lookup chunkId = some entry ∧ peerId ∈ entry.peerIds

theorem lookup_reloaded {m : MetadataManager} (hkeyed : m.Keyed) (chunkId : Bytes) :
    m.reloaded.chunks.lookup chunkId =
      ((m.chunks.lookup chunkId).filter fun entry => !entry.chunkId.isEmpty).map reread := by
  have hentries : ∀ e ∈ m.chunks.entries, e.2.chunkId = e.1 ∨ e.2.chunkId = [] := fun e he =>
    hkeyed e.1 e.2 (AList.mem_lookup_iff.mpr he)
  have hempty : new.chunks.lookup chunkId = none := AList.lookup_empty chunkId
  rw [reloaded, lookup_foldl_restore m.chunks.nodupKeys hentries, hempty, Option.or_none]
  rfl

theorem mem_peers_reloaded (m : MetadataManager) (peerId : Bytes) :
    peerId ∈ m.reloaded.peers ↔
      ∃ chunkId entry, m.chunks.lookup chunkId = some entry ∧ peerId ∈ entry.peerIds := by
  have hnew : ¬peerId ∈ new.peers := HashSet.notMem_empty peerId
  rw [reloaded, mem_peers_foldl_restore]
  constructor
  · rintro (hmem | ⟨e, he, hpeer⟩)
    · exact absurd hmem hnew
    · exact ⟨e.1, e.2, AList.mem_lookup_iff.mpr he, hpeer⟩
  · rintro ⟨chunkId, entry, hlookup, hpeer⟩
    exact Or.inr ⟨⟨chunkId, entry⟩, AList.mem_lookup_iff.mp hlookup, hpeer⟩

theorem restored_iff_complete {m : MetadataManager} (hkeyed : m.Keyed) :
    m.Restored ↔ m.Complete := by
  rw [restored_iff_same]
  constructor
  · intro hsame
    refine ⟨fun chunkId entry hlookup => ?_, fun peerId => ?_⟩
    · have hrel := hsame.chunks chunkId
      rw [lookup_reloaded hkeyed, hlookup] at hrel
      -- An entry without a chunk id has been skipped.
      have hne : entry.chunkId ≠ [] := by
        intro hnil
        simp [Option.filter, hnil] at hrel
      rcases hkeyed chunkId entry hlookup with hname | hnil
      · rw [hname] at hne
        exact ⟨hname, hne⟩
      · exact absurd hnil hne
    · rw [hsame.peers peerId, mem_peers_reloaded]
  · intro hcomplete
    refine ⟨fun chunkId => ?_, fun peerId => ?_⟩
    · rw [lookup_reloaded hkeyed]
      cases hlookup : m.chunks.lookup chunkId with
      | none => exact .none
      | some entry =>
          obtain ⟨hname, hne⟩ := hcomplete.named chunkId entry hlookup
          rw [← hname] at hne
          simp only [Option.filter_some, List.isEmpty_eq_false_iff.mpr hne, Bool.not_false, if_true,
            Option.map_some]
          exact .some (same_reread entry)
    · rw [mem_peers_reloaded, hcomplete.peers peerId]

/-! ## One operation -/

theorem keyed_new : new.Keyed := by
  intro chunkId entry hlookup
  simp [new] at hlookup

theorem Keyed.insert {m : MetadataManager} (h : m.Keyed) {chunkId : Bytes}
    {entry : ChunkIndexEntry} (hentry : entry.chunkId = chunkId ∨ entry.chunkId = [])
    (peers : HashSet Bytes) : Keyed ⟨m.chunks.insert chunkId entry, peers⟩ := by
  intro other entry' hlookup
  by_cases hk : other = chunkId
  · subst hk
    rw [AList.lookup_insert] at hlookup
    cases hlookup
    exact hentry
  · rw [AList.lookup_insert_ne hk] at hlookup
    exact h other entry' hlookup

theorem Keyed.apply {m : MetadataManager} (h : m.Keyed) (op : Op) : (m.apply op).Keyed := by
  cases op with
  | updateChunkLocation now chunkId peerId =>
      refine h.insert ?_ _
      cases hlookup : m.chunks.lookup chunkId with
      | none => exact Or.inr rfl
      | some entry => exact h chunkId entry hlookup
  | removeChunkLocation chunkId peerId =>
      simp only [MetadataManager.apply, removeChunkLocation]
      split
      · rename_i entry hlookup
        refine h.insert ?_ _
        exact h chunkId entry hlookup
      · exact h
  | setChunkMetadata entry => exact h.insert (Or.inl rfl) _
  | removeChunkMetadata chunkId =>
      intro other entry hlookup
      by_cases hk : other = chunkId
      · subst hk
        simp [MetadataManager.apply, removeChunkMetadata] at hlookup
      · exact h other entry ((AList.lookup_erase_ne hk).symm.trans hlookup)
  | clear => exact keyed_new

theorem Complete.mem_peers_iff {m : MetadataManager} (h : m.Complete) (chunkId peerId : Bytes) :
    peerId ∈ m.peers ↔ (∃ entry, m.chunks.lookup chunkId = some entry ∧ peerId ∈ entry.peerIds) ∨
      m.ListedElsewhere chunkId peerId := by
  rw [h.peers]
  constructor
  · rintro ⟨other, entry, hlookup, hpeer⟩
    by_cases hk : other = chunkId
    · subst hk
      exact Or.inl ⟨entry, hlookup, hpeer⟩
    · exact Or.inr ⟨other, entry, hk, hlookup, hpeer⟩
  · rintro (⟨entry, hlookup, hpeer⟩ | ⟨other, entry, -, hlookup, hpeer⟩)
    · exact ⟨chunkId, entry, hlookup, hpeer⟩
    · exact ⟨other, entry, hlookup, hpeer⟩

/-- A new entry for one chunk keeps a complete state complete if it carries its
key and the known peers are its own and those listed elsewhere. -/
theorem Complete.insert_iff {m : MetadataManager} (h : m.Complete) {chunkId : Bytes}
    {entry : ChunkIndexEntry} {peers : HashSet Bytes} :
    Complete ⟨m.chunks.insert chunkId entry, peers⟩ ↔
      (entry.chunkId = chunkId ∧ chunkId ≠ []) ∧
        ∀ peerId, peerId ∈ peers ↔ peerId ∈ entry.peerIds ∨ m.ListedElsewhere chunkId peerId := by
  have hlisted : ∀ peerId, (∃ other entry',
      (m.chunks.insert chunkId entry).lookup other = some entry' ∧ peerId ∈ entry'.peerIds) ↔
        peerId ∈ entry.peerIds ∨ m.ListedElsewhere chunkId peerId := by
    intro peerId
    constructor
    · rintro ⟨other, entry', hlookup, hpeer⟩
      by_cases hk : other = chunkId
      · subst hk
        rw [AList.lookup_insert] at hlookup
        cases hlookup
        exact Or.inl hpeer
      · rw [AList.lookup_insert_ne hk] at hlookup
        exact Or.inr ⟨other, entry', hk, hlookup, hpeer⟩
    · rintro (hpeer | ⟨other, entry', hk, hlookup, hpeer⟩)
      · exact ⟨chunkId, entry, AList.lookup_insert _, hpeer⟩
      · exact ⟨other, entry', by rw [AList.lookup_insert_ne hk, hlookup], hpeer⟩
  constructor
  · intro hafter
    refine ⟨hafter.named chunkId entry (AList.lookup_insert _), fun peerId => ?_⟩
    rw [← hlisted]
    exact hafter.peers peerId
  · rintro ⟨hentry, hpeers⟩
    refine ⟨fun other entry' hlookup => ?_, fun peerId => (hpeers peerId).trans
      (hlisted peerId).symm⟩
    by_cases hk : other = chunkId
    · subst hk
      rw [AList.lookup_insert] at hlookup
      cases hlookup
      exact hentry
    · rw [AList.lookup_insert_ne hk] at hlookup
      exact h.named other entry' hlookup

theorem Complete.erase_iff {m : MetadataManager} (h : m.Complete) {chunkId : Bytes} :
    (m.removeChunkMetadata chunkId).Complete ↔
      ∀ peerId, peerId ∈ m.peers → m.ListedElsewhere chunkId peerId := by
  have hlookup : ∀ other entry, (m.chunks.erase chunkId).lookup other = some entry ↔
      other ≠ chunkId ∧ m.chunks.lookup other = some entry := by
    intro other entry
    by_cases hk : other = chunkId
    · subst hk
      simp
    · rw [AList.lookup_erase_ne hk]
      simp [hk]
  have hlisted : ∀ peerId, (∃ other entry,
      (m.chunks.erase chunkId).lookup other = some entry ∧ peerId ∈ entry.peerIds) ↔
        m.ListedElsewhere chunkId peerId := by
    intro peerId
    simp only [hlookup, and_assoc]
    exact Iff.rfl
  constructor
  · intro hafter peerId hpeer
    rw [← hlisted]
    exact (hafter.peers peerId).mp hpeer
  · intro hcovered
    refine ⟨fun other entry hentry => h.named other entry ((hlookup other entry).mp hentry).2,
      fun peerId => ?_⟩
    refine Iff.trans ⟨hcovered peerId, fun helse => ?_⟩ (hlisted peerId).symm
    exact (h.mem_peers_iff chunkId peerId).mpr (Or.inr helse)

/-- The operation gives no location to a chunk without an entry, stores no peer
that is not known and no entry without a chunk id, and takes no peer out of the
last entry that lists it. -/
def Covers (m : MetadataManager) : Op → Prop
  | .updateChunkLocation _ chunkId _ => (m.chunks.lookup chunkId).isSome = true
  | .removeChunkLocation chunkId peerId => ∀ entry, m.chunks.lookup chunkId = some entry →
      peerId ∈ entry.peerIds → m.ListedElsewhere chunkId peerId
  | .setChunkMetadata entry => entry.chunkId ≠ [] ∧ (∀ peerId, peerId ∈ entry.peerIds →
      peerId ∈ m.peers) ∧ ∀ old, m.chunks.lookup entry.chunkId = some old →
        ∀ peerId, peerId ∈ old.peerIds → peerId ∈ entry.peerIds ∨
          m.ListedElsewhere entry.chunkId peerId
  | .removeChunkMetadata chunkId => ∀ entry, m.chunks.lookup chunkId = some entry →
      ∀ peerId, peerId ∈ entry.peerIds → m.ListedElsewhere chunkId peerId
  | .clear => True

theorem complete_new : new.Complete where
  named chunkId entry hlookup := by simp [new] at hlookup
  peers peerId := by simp [new]

theorem Complete.updateChunkLocation_iff {m : MetadataManager} (h : m.Complete) (now : UInt64)
    (chunkId peerId : Bytes) : (m.updateChunkLocation now chunkId peerId).Complete ↔
      (m.chunks.lookup chunkId).isSome = true := by
  unfold updateChunkLocation
  rw [h.insert_iff]
  cases hlookup : m.chunks.lookup chunkId with
  | none =>
      simp only [Option.getD_none, Option.isSome_none, Bool.false_eq_true, iff_false, not_and]
      exact fun hname => absurd hname.1.symm hname.2
  | some entry =>
      simp only [Option.getD_some, Option.isSome_some, iff_true]
      refine ⟨h.named chunkId entry hlookup, fun other => ?_⟩
      rw [HashSet.mem_insert, HashSet.mem_insert, h.mem_peers_iff chunkId, hlookup]
      simp only [Option.some.injEq, exists_eq_left']
      tauto

theorem Complete.removeChunkLocation_iff {m : MetadataManager} (h : m.Complete)
    (chunkId peerId : Bytes) : (m.removeChunkLocation chunkId peerId).Complete ↔
      ∀ entry, m.chunks.lookup chunkId = some entry → peerId ∈ entry.peerIds →
        m.ListedElsewhere chunkId peerId := by
  unfold removeChunkLocation
  cases hlookup : m.chunks.lookup chunkId with
  | none => exact ⟨fun _ entry hentry => (nomatch hentry), fun _ => h⟩
  | some entry =>
      rw [h.insert_iff]
      simp only [h.mem_peers_iff chunkId, hlookup, HashSet.mem_erase, Option.some.injEq,
        forall_eq', exists_eq_left']
      constructor
      · rintro ⟨-, hpeers⟩ hpeer
        have hself := (hpeers peerId).mp (Or.inl hpeer)
        tauto
      · intro hcovered
        refine ⟨h.named chunkId entry hlookup, fun other => ?_⟩
        by_cases hk : other = peerId
        · subst hk
          tauto
        · tauto

theorem Complete.setChunkMetadata_iff {m : MetadataManager} (h : m.Complete)
    (entry : ChunkIndexEntry) :
    (m.setChunkMetadata entry).Complete ↔ m.Covers (.setChunkMetadata entry) := by
  unfold setChunkMetadata Covers
  rw [h.insert_iff]
  constructor
  · rintro ⟨⟨-, hne⟩, hpeers⟩
    refine ⟨hne, fun peerId hpeer => (hpeers peerId).mpr (Or.inl hpeer), ?_⟩
    intro old hold peerId hpeer
    exact (hpeers peerId).mp ((h.mem_peers_iff entry.chunkId peerId).mpr
      (Or.inl ⟨old, hold, hpeer⟩))
  · rintro ⟨hne, hknown, hold⟩
    refine ⟨⟨rfl, hne⟩, fun peerId => ⟨fun hpeer => ?_, ?_⟩⟩
    · rcases (h.mem_peers_iff entry.chunkId peerId).mp hpeer with ⟨old, hlookup, hlisted⟩ | helse
      · exact hold old hlookup peerId hlisted
      · exact Or.inr helse
    · rintro (hpeer | helse)
      · exact hknown peerId hpeer
      · exact (h.mem_peers_iff entry.chunkId peerId).mpr (Or.inr helse)

theorem Complete.apply_iff {m : MetadataManager} (h : m.Complete) (op : Op) :
    (m.apply op).Complete ↔ m.Covers op := by
  cases op with
  | updateChunkLocation now chunkId peerId => exact h.updateChunkLocation_iff now chunkId peerId
  | removeChunkLocation chunkId peerId => exact h.removeChunkLocation_iff chunkId peerId
  | setChunkMetadata entry => exact h.setChunkMetadata_iff entry
  | removeChunkMetadata chunkId =>
      refine h.erase_iff.trans ⟨fun hcovered entry hlookup peerId hpeer => ?_, ?_⟩
      · exact hcovered peerId ((h.mem_peers_iff chunkId peerId).mpr
          (Or.inl ⟨entry, hlookup, hpeer⟩))
      · intro hcovered peerId hpeer
        rcases (h.mem_peers_iff chunkId peerId).mp hpeer with ⟨entry, hlookup, hlisted⟩ | helse
        · exact hcovered entry hlookup peerId hlisted
        · exact helse
  | clear => exact ⟨fun _ => trivial, fun _ => complete_new⟩

/-! ## Every history -/

/-- A history goes through states that are restored only, exactly if each of its
operations covers what it changes. -/
theorem restored_iff_everyStep_covers (ops : List Op) :
    EveryStep step Covers new ops ↔
      ∀ front m, front <+: ops → runSteps step new front = some m → m.Restored := by
  refine everyStep_iff_forall_reached (J := Keyed) ?_ ?_ keyed_new
    ((restored_iff_complete keyed_new).mpr complete_new)
  · rintro m op m' hkeyed hstep
    cases hstep
    exact hkeyed.apply op
  · intro m op hkeyed hrestored
    have hcomplete := (restored_iff_complete hkeyed).mp hrestored
    rw [← hcomplete.apply_iff op, ← restored_iff_complete (hkeyed.apply op)]
    constructor
    · rintro hafter m' hstep
      cases hstep
      exact hafter
    · intro hafter
      exact hafter _ rfl

/-- A location that is all that is known of its chunk is lost. -/
theorem not_restored_location :
    ¬(new.updateChunkLocation 0 (ascii "c") (ascii "p")).Restored := by
  intro h
  have hkeyed : (new.updateChunkLocation 0 (ascii "c") (ascii "p")).Keyed :=
    keyed_new.apply (.updateChunkLocation 0 (ascii "c") (ascii "p"))
  have hnamed := ((restored_iff_complete hkeyed).mp h).named (ascii "c") _ (AList.lookup_insert _)
  exact absurd hnamed.1 (by decide)

end MetadataManager

end ElioP2P.Control
