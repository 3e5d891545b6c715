import ElioP2P.P2P.Proofs.Delivery
import ElioP2P.Proxy.Proofs.Requests

/-!
# The chunk server

A connection of the chunk server stores what a complete Upload message carries,
under whatever id it names; the hash it checks is the sender's own.
-/

namespace ElioP2P.Proxy

open ElioP2P.Library ElioP2P.Library.Coroutine ElioP2P.Cache ElioP2P.Cache.ChunkManager
open ElioP2P.P2P

/-! ## Uploads on the wire -/

def uploadOf (H : Sha256) (bytes : Bytes) : Option (Bytes × Bytes) :=
  if h : (bytes.take ChunkMessageHeader.size).length = ChunkMessageHeader.size then
    let header := headerFromWire ⟨bytes.take ChunkMessageHeader.size, h⟩
    let rest := bytes.drop ChunkMessageHeader.size
    let id := rest.take header.chunkIdLength.toNat
    let data := rest.drop header.chunkIdLength.toNat
    if header.messageType = ChunkMessageType.upload.toUInt32 ∧
        id.length = header.chunkIdLength.toNat ∧ data.length = header.dataLength.toNat ∧
        H.digest data = header.hash then some (id, data)
    else none
  else none

theorem uploadOf_message {H : Sha256} {wire : WireHeader} {id data : Bytes}
    (htype : (headerFromWire wire).messageType = ChunkMessageType.upload.toUInt32)
    (hid : id.length = (headerFromWire wire).chunkIdLength.toNat)
    (hdata : data.length = (headerFromWire wire).dataLength.toNat)
    (hhash : H.digest data = (headerFromWire wire).hash) :
    uploadOf H (wire.val ++ id ++ data) = some (id, data) := by
  obtain ⟨bytes, hlength⟩ := wire
  have htake : (bytes ++ id ++ data).take ChunkMessageHeader.size = bytes := by
    rw [List.append_assoc, ← hlength, List.take_left]
  have hdrop : (bytes ++ id ++ data).drop ChunkMessageHeader.size = id ++ data := by
    rw [List.append_assoc, ← hlength, List.drop_left]
  simp only [uploadOf, htake, hdrop, hlength, dite_true]
  rw [← hid, List.take_left, List.drop_left, if_pos ⟨htype, rfl, hdata, hhash⟩]

section Server

variable {H : Sha256} {fuel : Nat} {C : Contract nodeSignature}
  {K : List (Event nodeSignature) → nodeSignature.Frame → Node → Prop}
  {frame : nodeSignature.Frame} {h : List (Event nodeSignature)} {s : Node}

/-! ## Sending -/

theorem guarantees_sendSlices (hC : TransferContract H C K) (rounds : Nat) (rest : Bytes) :
    Guarantees C K frame (sendSlices rounds rest) fun _ _ => True := by
  induction rounds generalizing rest with
  | zero => exact guarantees_pure trivial
  | succ rounds ih =>
      unfold sendSlices
      split
      · exact guarantees_pure trivial
      · apply Guarantees.bind (guarantees_acquire hC _ _)
        intro new _ _
        apply Guarantees.bind (guarantees_writeLoop hC _ _)
        intro new₂ written _
        split
        · exact ih _
        · exact guarantees_pure trivial

theorem guarantees_reply (hC : TransferContract H C K) (header : ChunkMessageHeader) (id : Bytes) :
    Guarantees C K frame (do
      let _ ← writeMessage header id
      streamClose) fun _ _ => True := by
  apply Guarantees.bind (guarantees_writeMessage hC header id)
  intro new written _
  exact (guarantees_streamClose hC).mono fun _ _ _ => trivial

theorem guarantees_uploadFailed (hC : TransferContract H C K) (close : Bool) :
    Guarantees C K frame (uploadFailed close) fun _ _ => True := by
  apply Guarantees.bind (guarantees_onTransfer hC (Q := fun _ _ => True) fun _ => trivial)
  intro new _ _
  split
  · exact (guarantees_closeWith hC false).mono fun _ _ _ => trivial
  · exact guarantees_pure trivial

theorem guarantees_uploadChunk (hC : TransferContract H C K) (chunkId data : Bytes)
    (peer : PeerNode) :
    Guarantees C K frame (uploadChunk H chunkId data peer) fun _ _ => True := by
  have hsection : ∀ {α : Type} (f : TransferManager → α × TransferManager),
      Guarantees C K frame (onTransfer f) fun _ _ => True :=
    fun f => guarantees_onTransfer hC fun _ => trivial
  apply Guarantees.bind (hsection _)
  intro new running _
  split
  · exact guarantees_pure trivial
  apply Guarantees.bind (hsection _)
  intro new₂ _ _
  apply Guarantees.bind (@guarantees_ask H C K frame hC (.tcpConnect peer.address peer.port) trivial
    (fun _ _ => True) fun _ => trivial)
  intro new₃ connected _
  split
  · exact guarantees_uploadFailed hC false
  apply Guarantees.bind (guarantees_writeMessage hC _ _)
  intro new₄ written _
  split
  · exact guarantees_uploadFailed hC true
  apply Guarantees.bind (guarantees_sendSlices hC _ _)
  intro new₅ sent _
  split
  · exact guarantees_uploadFailed hC true
  apply Guarantees.bind (guarantees_readHeader hC)
  intro new₆ reply _
  cases reply with
  | none => exact guarantees_uploadFailed hC true
  | some reply =>
      apply Guarantees.bind (guarantees_readExact hC _)
      intro new₇ echoed _
      split
      · exact guarantees_uploadFailed hC true
      apply Guarantees.bind (guarantees_streamClose hC)
      intro new₈ _ _
      apply Guarantees.bind (hsection _)
      intro new₉ _ _
      exact guarantees_pure trivial

/-! ## One connection -/

structure ServerContract (H : Sha256) (C : Contract nodeSignature)
    (K : List (Event nodeSignature) → nodeSignature.Frame → Node → Prop) : Prop where
  transfer : TransferContract H C K
  spares : SparesAnchors C
  faultless : ∀ s : Node, C.holds none s → s.cache.fileSystem.Faultless
  quiet : ∀ s s' : Node, C.holds none s → Quiet s s' → C.holds none s'
  /-- An upload is stored some time after all of it has come in. -/
  stores : ∀ h (s s' : Node) id data, C.holds none s →
    C.admits h none s (.external (.lock (.store id data))) () →
      uploadOf H (received (exchangesOf h)) = some (id, data) → Stores id data s s' →
        C.holds none s'

theorem ServerContract.sat_routine {α : Type} {c : Proc α}
    {Q : List (Event nodeSignature) → α → Prop}
    (hc : Guarantees C K none c Q) (hs : C.holds none s) :
    c.Sat C (fun _ _ _ s' => C.holds none s') h none s := by
  apply (hc.sat hs).mono
  rintro h' frame' value s' ⟨-, new, -, hs', -⟩
  exact hs'

theorem ServerContract.sat_receiveUpload (hC : ServerContract H C K) {wire : WireHeader}
    {id : Bytes} (htype : (headerFromWire wire).messageType = ChunkMessageType.upload.toUInt32)
    (hid : id.length = (headerFromWire wire).chunkIdLength.toNat)
    (hh : received (exchangesOf h) = wire.val ++ id) (hs : C.holds none s) :
    (receiveUpload (storeChunk H fuel) H (headerFromWire wire) id).Sat C
      (fun _ _ _ s' => C.holds none s') h none s := by
  simp only [receiveUpload]
  split
  · exact hs
  rename_i hbounds
  apply Sat.bind
  apply ((guarantees_readExact hC.transfer _).sat hs).mono
  rintro h' frame' data s₁ ⟨rfl, new, rfl, hs₁, -, -, hreads⟩
  split
  · exact hs₁
  rename_i hlength
  have hdata : data.length = (headerFromWire wire).dataLength.toNat := not_not.mp hlength
  apply Sat.bind
  unfold acceptUpload
  split
  · rename_i hhash
    have hupload : uploadOf H (received (exchangesOf (h ++ new))) = some (id, data) := by
      rw [exchangesOf_append, P2P.received, List.flatMap_append]
      change uploadOf H (received (exchangesOf h) ++ received (exchangesOf new)) = _
      rw [hh, hreads.received]
      exact uploadOf_message htype hid hdata hhash
    apply sat_storeChunk hC.spares hs₁ hC.faultless
    intro s₂ ok s₃ hs₂ hadmits hstores
    exact sat_routine (guarantees_reply hC.transfer _ id)
      (hC.stores _ s₂ s₃ id data hs₂ hadmits hupload hstores)
  · exact sat_routine (guarantees_reply hC.transfer _ id) hs₁

theorem ServerContract.sat_serveChunk (hC : ServerContract H C K) (header : ChunkMessageHeader)
    (id : Bytes) (hs : C.holds none s) :
    (serveChunk (loadChunk fuel) H header id).Sat C (fun _ _ _ s' => C.holds none s') h none s := by
  apply Sat.bind
  apply sat_loadChunk hC.spares hs
  intro s₀ chunk s₁ hs₀ _ hread
  replace hs₀ := hC.quiet s₀ s₁ hs₀ hread
  simp only
  split
  · exact sat_routine (guarantees_reply hC.transfer _ id) hs₀
  · refine sat_routine (K := K) (Q := fun _ _ => True) ?_ hs₀
    apply Guarantees.bind (guarantees_writeMessage hC.transfer _ _)
    intro new written _
    split
    · apply Guarantees.bind (guarantees_sendSlices hC.transfer _ _)
      intro new₂ _ _
      exact (guarantees_streamClose hC.transfer).mono fun _ _ _ => trivial
    · exact (guarantees_streamClose hC.transfer).mono fun _ _ _ => trivial

theorem ServerContract.sat_handleChunkRequest (hC : ServerContract H C K) (hs : C.holds none s) :
    (handleChunkRequest (loadChunk fuel) (storeChunk H fuel) H).Sat C
      (fun _ _ _ s' => C.holds none s') [] none s := by
  apply Sat.bind
  apply ((guarantees_readHeader hC.transfer).sat hs).mono
  rintro h₁ frame₁ header s₁ ⟨rfl, new₁, rfl, hs₁, -, hheader⟩
  cases header with
  | none => exact hs₁
  | some header =>
      obtain ⟨wire, rfl, hwire⟩ := hheader header rfl
      simp only
      split
      · exact hs₁
      apply Sat.bind
      apply ((guarantees_readExact hC.transfer _).sat hs₁).mono
      rintro h₂ frame₂ id s₂ ⟨rfl, new₂, rfl, hs₂, -, -, hid⟩
      split
      · exact hs₂
      rename_i hlength
      split
      · rename_i htype
        refine hC.sat_receiveUpload htype (not_not.mp hlength) ?_ hs₂
        exact (hwire.append hid).received
      · exact hC.sat_serveChunk _ id hs₂

end Server

end ElioP2P.Proxy
