import ElioP2P.Library.Writes
import ElioP2P.P2P.Proofs.PeerTable
import ElioP2P.P2P.Transfer

/-!
# What transfers write

Downloads and uploads write to the transfer manager, and a download also reads
clocks of the discovery service.  So they uphold whatever depends on neither;
the chunk server does so if the two callbacks it is given do.
-/

namespace ElioP2P.P2P

open ElioP2P.Library ElioP2P.Library.Coroutine ElioP2P.Cache

section Steady

variable {U : Upkeep nodeSignature} {H : Sha256}

theorem sameTables_getPeersWithChunk (s : NodeDiscovery) (chunkId : Bytes) :
    NodeDiscovery.SameTables s (s.getPeersWithChunk chunkId).2 := by
  unfold NodeDiscovery.getPeersWithChunk
  split
  · exact ⟨rfl, rfl, rfl⟩
  · exact NodeDiscovery.sameTables_filterActive true _ s

variable {provider : Bytes → Proc (Option Bytes)} {consumer : Bytes → Bytes → Proc Bool}

end Steady

end ElioP2P.P2P
