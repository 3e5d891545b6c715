import ElioP2P.Control.Proofs.MetadataPersistence
import Mathlib.Data.List.Induction

/-!
# Loading a damaged file

A file that cannot be opened or is no JSON leaves the manager as it was.  Behind
that the maps are cleared and filled entry by entry, so a document without
`chunks`, an entry that cannot be read or a peer that is no string leaves what
has been read so far in the place of what was there.
-/

namespace ElioP2P.Control.MetadataManager

open ElioP2P.Library

/-! ## What is read of a document -/

def leadingPeers : List Json → List Bytes
  | .string peerId :: ps => peerId :: leadingPeers ps
  | _ => []

def isString (p : Json) : Bool := p.getString.isSome

def entryOf (item : Json) : Option ChunkIndexEntry := do
  let (entry, peerIds) ← readEntry item
  if peerIds.items.all isString then
    some { entry with peerIds := entry.peerIds.insertAll (leadingPeers peerIds.items) }
  else none

def peersOf (item : Json) : List Bytes :=
  match readEntry item with
  | some (_, peerIds) => leadingPeers peerIds.items
  | none => []

def entriesOf : List Json → List ChunkIndexEntry
  | [] => []
  | item :: items =>
      match entryOf item with
      | some entry => entry :: entriesOf items
      | none => []

/-- The peers of these entries, and what can be read of the item behind them. -/
def knownPeers : List Json → List Bytes
  | [] => []
  | item :: items =>
      peersOf item ++ if (entryOf item).isSome then knownPeers items else []

/-- Entries without a chunk id are skipped. -/
def addEntry (chunks : AList fun _ : Bytes => ChunkIndexEntry) (entry : ChunkIndexEntry) :
    AList fun _ : Bytes => ChunkIndexEntry :=
  if entry.chunkId.isEmpty then chunks else chunks.insert entry.chunkId entry

def lastFor (chunkId : Bytes) (entries : List ChunkIndexEntry) : Option ChunkIndexEntry :=
  entries.reverse.find? fun entry => !entry.chunkId.isEmpty && entry.chunkId == chunkId

theorem loadPeers_eq (ps : List Json) (entry : ChunkIndexEntry) (peers : HashSet Bytes) :
    loadPeers ps entry peers =
      (ps.all isString, { entry with peerIds := entry.peerIds.insertAll (leadingPeers ps) },
        peers.insertAll (leadingPeers ps)) := by
  induction ps generalizing entry peers with
  | nil => rfl
  | cons p ps ih =>
      cases p with
      | string peerId => exact ih _ _
      | _ => rfl

theorem loadItem_eq (m : MetadataManager) (item : Json) :
    m.loadItem item =
      ((entryOf item).isSome,
        { chunks := (entryOf item).elim m.chunks (addEntry m.chunks)
          peers := m.peers.insertAll (peersOf item) }) := by
  unfold loadItem entryOf peersOf
  cases readEntry item with
  | none => rfl
  | some read =>
      obtain ⟨entry, peerIds⟩ := read
      simp only [loadPeers_eq, Option.bind_eq_bind, Option.bind_some]
      cases peerIds.items.all isString with
      | false => rfl
      | true =>
          simp only [if_true, Option.isSome_some, Option.elim_some, addEntry]
          split <;> rfl

theorem loadItems_eq (items : List Json) (m : MetadataManager) :
    loadItems items m =
      (items.all fun item => (entryOf item).isSome,
        { chunks := (entriesOf items).foldl addEntry m.chunks
          peers := m.peers.insertAll (knownPeers items) }) := by
  induction items generalizing m with
  | nil => rfl
  | cons item items ih =>
      unfold loadItems entriesOf knownPeers
      rw [loadItem_eq]
      cases hentry : entryOf item with
      | none => simp [hentry]
      | some entry => simp [hentry, ih, HashSet.insertAll]

theorem lookup_foldl_addEntry (entries : List ChunkIndexEntry)
    (chunks : AList fun _ : Bytes => ChunkIndexEntry) (chunkId : Bytes) :
    (entries.foldl addEntry chunks).lookup chunkId =
      (lastFor chunkId entries).or (chunks.lookup chunkId) := by
  induction entries using List.reverseRecOn with
  | nil => rfl
  | append_singleton entries entry ih =>
      rw [List.foldl_append, List.foldl_cons, List.foldl_nil, addEntry, lastFor,
        List.reverse_append, List.reverse_singleton, List.singleton_append, List.find?_cons]
      by_cases hnamed : entry.chunkId.isEmpty = true
      · simp only [hnamed, if_true, Bool.not_true, Bool.false_and]
        exact ih
      · rw [if_neg hnamed]
        by_cases hkey : chunkId = entry.chunkId
        · subst hkey
          rw [AList.lookup_insert]
          simp [hnamed]
        · have hother : (entry.chunkId == chunkId) = false := beq_eq_false_iff_ne.mpr (Ne.symm hkey)
          rw [AList.lookup_insert_ne hkey, ih, hother, Bool.and_false]
          rfl

/-! ## When nothing is lost -/

def Describes (j : Json) (m : MetadataManager) : Prop :=
  let items := ((j.at? (ascii "chunks")).elim [] Json.items)
  (∀ chunkId, Option.Rel ChunkIndexEntry.Same (m.chunks.lookup chunkId)
      (lastFor chunkId (entriesOf items))) ∧
    ∀ peerId, peerId ∈ m.peers ↔ peerId ∈ knownPeers items

def Readable (j : Json) : Prop :=
  ∃ chunks, j.at? (ascii "chunks") = some chunks ∧
    ∀ item ∈ chunks.items, (entryOf item).isSome = true

/-- The file has no JSON, or all of it can be read, or the manager had before
what can be read of it. -/
def LoadsSafely (text : JsonText) (m : MetadataManager) : FileState → Prop
  | .absent | .unreadable => True
  | .contents bytes =>
      ∀ j, text.parse bytes = some j → Readable j ∨ Describes j m

/-- What reading leaves behind is what the manager had exactly if the document
describes that. -/
theorem same_iff_describes {j : Json} {chunks : Json} (m : MetadataManager)
    (hchunks : j.at? (ascii "chunks") = some chunks) :
    m.Same (loadItems chunks.items new).2 ↔ Describes j m := by
  have hpeers : m.peers.Equiv (loadItems chunks.items new).2.peers ↔
      ∀ peerId, peerId ∈ m.peers ↔ peerId ∈ knownPeers chunks.items := by
    refine forall_congr' fun peerId => ?_
    have hnone : peerId ∉ new.peers := HashSet.notMem_empty peerId
    rw [loadItems_eq, HashSet.mem_insertAll, or_iff_left hnone]
  have hlookup : ∀ chunkId, (loadItems chunks.items new).2.chunks.lookup chunkId =
      lastFor chunkId (entriesOf chunks.items) := by
    intro chunkId
    rw [loadItems_eq, lookup_foldl_addEntry]
    exact Option.or_none
  simp only [Describes, hchunks, Option.elim_some, ← hpeers, ← hlookup]
  exact ⟨fun h => ⟨h.chunks, h.peers⟩, fun h => ⟨h.1, h.2⟩⟩

theorem same_new_iff_describes {j : Json} (m : MetadataManager)
    (hchunks : j.at? (ascii "chunks") = none) : m.Same new ↔ Describes j m := by
  simp only [Describes, hchunks, Option.elim_none]
  exact ⟨fun h => ⟨h.chunks, h.peers⟩, fun h => ⟨h.1, h.2⟩⟩

theorem Same.refl (m : MetadataManager) : m.Same m where
  chunks chunkId := by
    cases m.chunks.lookup chunkId with
    | none => exact .none
    | some entry => exact .some ⟨rfl, fun _ => Iff.rfl⟩
  peers _ := Iff.rfl

/-- A load that fails leaves the chunks and the peers as they were exactly if
the file has no JSON or what can be read of it is what was there. -/
theorem load_failure_iff (text : JsonText) (m : MetadataManager) (file : FileState) :
    ((load text m file).1 = false → m.Same (load text m file).2) ↔ LoadsSafely text m file := by
  cases file with
  | absent =>
      refine iff_of_true (fun h => ?_) trivial
      cases h
  | unreadable => exact iff_of_true (fun _ => Same.refl m) trivial
  | contents bytes =>
      simp only [load, LoadsSafely]
      cases hparse : text.parse bytes with
      | none =>
          refine iff_of_true (fun _ => Same.refl m) fun _ hj => ?_
          cases hj
      | some j =>
          simp only [Option.some.injEq, forall_eq']
          cases hchunks : j.at? (ascii "chunks") with
          | none =>
              have hnot : ¬ Readable j := by
                rintro ⟨chunks, hsome, -⟩
                cases hchunks.symm.trans hsome
              simp only [true_implies, hnot, false_or]
              exact same_new_iff_describes m hchunks
          | some chunks =>
              have hread : (loadItems chunks.items new).1 = true ↔ Readable j := by
                rw [loadItems_eq, List.all_eq_true]
                constructor
                · exact fun h => ⟨chunks, hchunks, h⟩
                · rintro ⟨_, hsome, h⟩
                  cases hchunks.symm.trans hsome
                  exact h
              rw [← hread, ← same_iff_describes m hchunks]
              cases (loadItems chunks.items new).1 <;> simp

def sampleText : JsonText where
  dump := fun _ => none
  parse bytes := if bytes = ascii "\x7b\x7d" then some (.object []) else none

/-- A document without `chunks` empties the manager. -/
theorem not_load_failure_noChunks :
    (load sampleText (new.updateChunkLocation 0 (ascii "c") (ascii "p"))
        (.contents (ascii "\x7b\x7d"))).1 = false ∧
      ¬ (new.updateChunkLocation 0 (ascii "c") (ascii "p")).Same
        (load sampleText (new.updateChunkLocation 0 (ascii "c") (ascii "p"))
          (.contents (ascii "\x7b\x7d"))).2 := by
  refine ⟨by decide, fun h => ?_⟩
  have hpeer := (h.peers (ascii "p")).mp (by decide)
  exact absurd hpeer (by decide)

end ElioP2P.Control.MetadataManager
