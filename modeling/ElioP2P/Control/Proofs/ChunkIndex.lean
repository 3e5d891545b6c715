import ElioP2P.Control.Server

/-!
# The chunk index of the control plane

A report replaces the chunks of the node's last report.  Chunks that a node
brought along when it registered are in the index as well, but in no report, so
they stay until a report names them.
-/

namespace ElioP2P.Control.ControlPlaneServer

open ElioP2P.Library

def Locates (s : ControlPlaneServer) (chunk nodeId : Bytes) : Prop :=
  MemAt s.chunkIndex chunk nodeId

instance (s : ControlPlaneServer) (chunk nodeId : Bytes) : Decidable (s.Locates chunk nodeId) :=
  inferInstanceAs (Decidable (MemAt _ _ _))

theorem locates_updateChunkIndex_add (s : ControlPlaneServer) (nodeId : Bytes)
    (chunkIds : List Bytes) (chunk other : Bytes) :
    (s.updateChunkIndex nodeId chunkIds true).Locates chunk other ↔
      s.Locates chunk other ∨ (chunk ∈ chunkIds ∧ other = nodeId) :=
  memAt_foldl_insertAt

theorem locates_updateChunkIndex_remove (s : ControlPlaneServer) (nodeId : Bytes)
    (chunkIds : List Bytes) (chunk other : Bytes) :
    (s.updateChunkIndex nodeId chunkIds false).Locates chunk other ↔
      s.Locates chunk other ∧ ¬ (chunk ∈ chunkIds ∧ other = nodeId) :=
  memAt_foldl_eraseAt

theorem locates_reportChunks {s : ControlPlaneServer} {nodeId : Bytes} {info : NodeInfo}
    (hinfo : s.nodes.lookup nodeId = some info) (chunkIds : List Bytes) (chunk other : Bytes) :
    (s.reportChunks nodeId chunkIds).2.Locates chunk other ↔
      (s.Locates chunk other ∧ ¬ (chunk ∈ info.chunks ∧ other = nodeId)) ∨
        (chunk ∈ chunkIds ∧ other = nodeId) := by
  have hindex : (s.reportChunks nodeId chunkIds).2.Locates chunk other ↔
      ((s.updateChunkIndex nodeId info.chunks false).updateChunkIndex nodeId chunkIds true).Locates
        chunk other := by
    unfold reportChunks
    rw [hinfo]
    exact Iff.rfl
  rw [hindex, locates_updateChunkIndex_add, locates_updateChunkIndex_remove]

/-! ## No empty location sets -/

theorem noEmptySets_updateChunkIndex {s : ControlPlaneServer} (h : NoEmptySets s.chunkIndex)
    (nodeId : Bytes) (chunkIds : List Bytes) (add : Bool) :
    NoEmptySets (s.updateChunkIndex nodeId chunkIds add).chunkIndex := by
  unfold updateChunkIndex
  split
  · exact noEmptySets_foldl (fun m key hm => noEmptySets_insertAt hm key nodeId) h chunkIds
  · exact noEmptySets_foldl (fun m key hm => noEmptySets_eraseAt hm key nodeId) h chunkIds

theorem noEmptySets_apply {s : ControlPlaneServer} (h : NoEmptySets s.chunkIndex) (op : Op) :
    NoEmptySets (s.apply op).chunkIndex := by
  cases op with
  | register now reg =>
      simp only [apply, registerNode]
      split
      · apply noEmptySets_updateChunkIndex
        exact h
      · split
        · exact h
        · apply noEmptySets_updateChunkIndex
          exact h
  | reportChunks nodeId chunkIds =>
      simp only [apply, reportChunks]
      split
      · exact h
      · exact noEmptySets_updateChunkIndex (noEmptySets_updateChunkIndex h _ _ _) _ _ _

def run (maxNodes : Nat) (ops : List Op) : ControlPlaneServer := ops.foldl apply (new maxNodes)

theorem noEmptySets_run (maxNodes : Nat) (ops : List Op) :
    NoEmptySets (run maxNodes ops).chunkIndex := by
  have hfold : ∀ s : ControlPlaneServer, NoEmptySets s.chunkIndex →
      NoEmptySets (ops.foldl apply s).chunkIndex := by
    induction ops with
    | nil => exact fun _ h => h
    | cons op ops ih => exact fun s h => ih _ (noEmptySets_apply h op)
  exact hfold _ nofun

/-! ## Reports -/

structure Replaced (s s' : ControlPlaneServer) (nodeId : Bytes) (chunkIds : List Bytes) :
    Prop where
  reported : ∀ chunk, s'.Locates chunk nodeId ↔ chunk ∈ chunkIds
  others : ∀ chunk other, other ≠ nodeId → (s'.Locates chunk other ↔ s.Locates chunk other)
  noEmpty : NoEmptySets s'.chunkIndex

/-- After any requests, a report replaces the node's locations exactly when
every chunk listed for the node is in its last report or in the new one. -/
theorem replaced_reportChunks_iff (maxNodes : Nat) (ops : List Op) {nodeId : Bytes}
    {info : NodeInfo} (hinfo : (run maxNodes ops).nodes.lookup nodeId = some info)
    (chunkIds : List Bytes) :
    Replaced (run maxNodes ops) ((run maxNodes ops).reportChunks nodeId chunkIds).2 nodeId
        chunkIds ↔
      ∀ chunk, (run maxNodes ops).Locates chunk nodeId →
        chunk ∈ info.chunks ∨ chunk ∈ chunkIds := by
  have hlocates := locates_reportChunks hinfo chunkIds
  constructor
  · intro hreplaced chunk hlisted
    by_cases hlast : chunk ∈ info.chunks
    · exact Or.inl hlast
    · have hafter := (hlocates chunk nodeId).mpr (Or.inl ⟨hlisted, fun h => hlast h.1⟩)
      exact Or.inr ((hreplaced.reported chunk).mp hafter)
  · intro hlisted
    refine ⟨fun chunk => ?_, fun chunk other hne => ?_, ?_⟩
    · rw [hlocates]
      constructor
      · rintro (⟨hbefore, hnot⟩ | ⟨hmem, -⟩)
        · exact (hlisted chunk hbefore).resolve_left fun h => hnot ⟨h, rfl⟩
        · exact hmem
      · intro hmem
        exact Or.inr ⟨hmem, rfl⟩
    · rw [hlocates]
      simp [hne]
    · exact noEmptySets_apply (noEmptySets_run maxNodes ops) (.reportChunks nodeId chunkIds)

def registersWithC : List Op :=
  [.register 0 { nodeId := ascii "n", address := ascii "10.0.0.1", availableChunks := [ascii "c"] }]

theorem replaced_reportChunks_iff_registered :
    ∃ info, (run 10 registersWithC).nodes.lookup (ascii "n") = some info ∧
      (Replaced (run 10 registersWithC)
          ((run 10 registersWithC).reportChunks (ascii "n") [ascii "c"]).2 (ascii "n") [ascii "c"] ↔
        ∀ chunk, (run 10 registersWithC).Locates chunk (ascii "n") →
          chunk ∈ info.chunks ∨ chunk ∈ [ascii "c"]) :=
  ⟨_, rfl, replaced_reportChunks_iff 10 registersWithC rfl [ascii "c"]⟩

/-- A report without `c` leaves the node in the location set of `c`. -/
theorem not_replaced_registered :
    ((run 10 registersWithC).reportChunks (ascii "n") []).1 = true ∧
      ¬ Replaced (run 10 registersWithC)
        ((run 10 registersWithC).reportChunks (ascii "n") []).2 (ascii "n") [] := by
  refine ⟨by decide, fun hreplaced => ?_⟩
  have hstale : ((run 10 registersWithC).reportChunks (ascii "n") []).2.Locates (ascii "c")
      (ascii "n") := by
    decide
  exact List.not_mem_nil ((hreplaced.reported (ascii "c")).mp hstale)

end ElioP2P.Control.ControlPlaneServer
