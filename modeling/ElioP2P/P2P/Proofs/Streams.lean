import ElioP2P.Library.Connection
import ElioP2P.P2P.Transfer

/-!
# Framed reads and writes at one end of a connection

What `read_exact`, `write_exact` and the loops around them do to the traffic of
one end, however the network cuts it into pieces.  `Gets` and `Writes` list what
a caller has to show for a routine that reads `n` bytes or writes given bytes.
-/

namespace ElioP2P.P2P

open ElioP2P.Library ElioP2P.Library.Coroutine

def nodePort : Port nodeSignature
  | .streamRead _ => .read fun bytes => bytes.val
  | .streamWrite bytes => .write bytes fun count => count.val
  | .streamClose => .close
  | .tcpConnect _ _ | .reserve _ | .sleepFor _ | .lock _ | .headObject _ _ | .getObject _ _ _ _ =>
      .elsewhere

/-- A property of a node that its other tasks do not change. -/
def Stable (E : Endpoint nodeSignature) (J : Node → Prop) : Prop :=
  ∀ s s', J s → E.finds s s' → J s'

/-- A property that the bookkeeping of a transfer does not change either. -/
structure Paced (E : Endpoint nodeSignature) (J : Node → Prop) : Prop where
  stable : Stable E J
  transfer : ∀ (s : Node) t, J s → t.contexts = s.transfer.contexts → J { s with transfer := t }
  sleeps : ∀ ms, E.answers (.sleepFor ms) ()

variable {E : Endpoint nodeSignature} {J : Node → Prop} {t : Traffic} {s : Node}

/-! ## Single questions -/

theorem waits_streamRead {n : Nat} (hn : 0 < n) (hholds : E.holds t s) (hreading : E.reading t) :
    E.Waits nodePort t s (.streamRead n) := by
  refine ⟨hholds, hreading, ⟨⟨[], by simp⟩, rfl⟩, fun available havailable => ?_⟩
  refine ⟨⟨available.take n, by simp⟩, ?_, List.take_prefix n available⟩
  intro hnil
  rcases List.take_eq_nil_iff.mp hnil with hzero | hempty
  · omega
  · exact havailable hempty

theorem waits_streamWrite {bytes : Bytes} (hbytes : bytes ≠ []) (hholds : E.holds t s) :
    E.Waits nodePort t s (.streamWrite bytes) := by
  refine ⟨hholds, Fin.last bytes.length, ?_⟩
  simpa using hbytes

theorem obeys_streamClose {post : Traffic → Unit → Node → Prop} (hholds : E.holds t s)
    (hpost : ∀ s', E.finds s s' → post t.shut () s') :
    streamClose.Obeys nodePort E post t s :=
  obeys_ask ⟨hholds, ⟨()⟩⟩ fun _ s' hfinds _ => hpost s' hfinds

theorem obeys_closeWith {α : Type} {result : α} {post : Traffic → α → Node → Prop}
    (hholds : E.holds t s) (hpost : ∀ s', E.finds s s' → post t.shut result s') :
    (closeWith result).Obeys nodePort E post t s :=
  Obeys.bind (obeys_streamClose hholds hpost)

theorem obeys_tcpConnect {address : Bytes} {port : UInt16} {post : Traffic → Bool → Node → Prop}
    (hholds : E.holds t s) (hanswer : ∃ ok, E.answers (.tcpConnect address port) ok)
    (hpost : ∀ (ok : Bool) s', E.finds s s' → E.answers (.tcpConnect address port) ok →
      post t ok s') :
    (tcpConnect address port).Obeys nodePort E post t s :=
  obeys_ask ⟨hholds, hanswer⟩ hpost

theorem obeys_reserve {n : Nat} {post : Traffic → Bool → Node → Prop}
    (hholds : E.holds t s) (hanswer : ∃ ok, E.answers (.reserve n) ok)
    (hpost : ∀ (ok : Bool) s', E.finds s s' → E.answers (.reserve n) ok → post t ok s') :
    (reserve n).Obeys nodePort E post t s :=
  obeys_ask ⟨hholds, hanswer⟩ hpost

theorem obeys_onTransfer {α : Type} {f : TransferManager → α × TransferManager}
    {post : Traffic → α → Node → Prop}
    (hpost : post t (f s.transfer).1 { s with transfer := (f s.transfer).2 }) :
    (onTransfer f).Obeys nodePort E post t s := by
  refine obeys_atomically (fun hnone => nomatch hnone) fun value s' hf => ?_
  cases hf
  exact hpost

/-! ## Reading -/

structure Gets (E : Endpoint nodeSignature) (J : Node → Prop) (t : Traffic) (n : Nat)
    (post : Traffic → Bytes → Node → Prop) : Prop where
  wait : ∀ got s, got.length < n → E.input (t.received ++ got) → J s →
    E.holds (t.gets got) s ∧ E.reading (t.gets got)
  full : ∀ got s, got.length = n → E.input (t.received ++ got) → J s → post (t.gets got) got s
  short : ∀ got s, got.length < n → E.eof (t.gets got) → J s → post (t.gets got) got s

theorem Gets.obeys_readLoop {n rounds : Nat} {got : Bytes} {post : Traffic → Bytes → Node → Prop}
    (h : Gets E J t n post) (hJ : Stable E J) (hs : J s) (hrounds : n ≤ got.length + rounds)
    (hgot : got.length ≤ n) (hin : E.input (t.received ++ got)) :
    (readLoop n rounds got).Obeys nodePort E post (t.gets got) s := by
  induction rounds generalizing got s with
  | zero => exact h.full got s (by omega) hin hs
  | succ rounds ih =>
      simp only [readLoop]
      split
      · rename_i hlt
        obtain ⟨hholds, hreading⟩ := h.wait got s hlt hin hs
        refine Obeys.bind (obeys_ask (waits_streamRead (by omega) hholds hreading) ?_)
        rintro ⟨r, hr⟩ s' hfinds ⟨hin', heof⟩
        simp only [nodePort, Traffic.after, Traffic.gets_gets, Traffic.gets_received,
          List.append_assoc] at hin' heof ⊢
        have hs' := hJ s s' hs hfinds
        split
        · rename_i hempty
          have hnil : r = [] := by simpa using hempty
          rw [hnil, List.append_nil]
          exact h.short got s' hlt (heof hnil) hs'
        · rename_i hne
          have hpos : 0 < r.length := by
            apply List.length_pos_of_ne_nil
            simpa using hne
          refine ih hs' ?_ ?_ hin'
          · rw [List.length_append]
            omega
          · rw [List.length_append]
            omega
      · exact h.full got s (by omega) hin hs

theorem Gets.obeys_readExact {n : Nat} {post : Traffic → Bytes → Node → Prop}
    (h : Gets E J t n post) (hJ : Stable E J) (hs : J s) (hin : E.input t.received) :
    (readExact n).Obeys nodePort E post t s := by
  have hloop := @Gets.obeys_readLoop E J t s n n [] post h hJ hs (by simp) (by simp)
    (by simpa using hin)
  rwa [Traffic.gets_nil] at hloop

theorem headerBytes_leads {h h' : ChunkMessageHeader} {a b : Bytes}
    (hleads : headerBytes h ++ a <+: headerBytes h' ++ b) : h = h' ∧ a <+: b := by
  obtain ⟨c, hc⟩ := hleads
  rw [List.append_assoc] at hc
  obtain ⟨hheader, hrest⟩ := List.append_inj hc (by rw [length_headerBytes, length_headerBytes])
  exact ⟨headerBytes_injective hheader, c, hrest⟩

/-- What follows a header up to the length of the id is the id. -/
theorem eq_of_headerBytes_leads {h h' : ChunkMessageHeader} {got id rest : Bytes}
    (hleads : headerBytes h ++ got <+: headerBytes h' ++ (id ++ rest))
    (hlength : got.length = id.length) : got = id :=
  (List.prefix_of_prefix_length_le (headerBytes_leads hleads).2 (List.prefix_append _ _)
    hlength.le).eq_of_length hlength

theorem obeys_readHeader {post : Traffic → Option ChunkMessageHeader → Node → Prop}
    (hJ : Stable E J) (hs : J s) (hin : E.input t.received)
    (hwait : ∀ got s, got.length < ChunkMessageHeader.size → E.input (t.received ++ got) → J s →
      E.holds (t.gets got) s ∧ E.reading (t.gets got))
    (hfull : ∀ header s, E.input (t.received ++ headerBytes header) → J s →
      post (t.gets (headerBytes header)) (some header) s)
    (hshort : ∀ got s, got.length < ChunkMessageHeader.size → E.eof (t.gets got) → J s →
      post (t.gets got) none s) :
    readHeader.Obeys nodePort E post t s := by
  refine Obeys.bind (Gets.obeys_readExact (J := J) ⟨hwait, fun got s hgot hin hs => ?_,
    fun got s hgot heof hs => ?_⟩ hJ hs hin)
  · have hbytes := headerBytes_headerFromWire ⟨got, hgot⟩
    have hfull := hfull (headerFromWire ⟨got, hgot⟩) s
    simp only at hbytes
    rw [hbytes] at hfull
    simp only [hgot, dite_true]
    exact hfull hin hs
  · have hne : got.length ≠ ChunkMessageHeader.size := hgot.ne
    simp only [hne, dite_false]
    exact hshort got s hgot heof hs

/-! ## Writing -/

structure Writes (E : Endpoint nodeSignature) (J : Node → Prop) (t : Traffic) (bytes : Bytes)
    (post : Traffic → Bool → Node → Prop) : Prop where
  wait : ∀ done rest s, done ++ rest = bytes → rest ≠ [] → J s → E.holds (t.sends done) s
  full : ∀ s, J s → post (t.sends bytes) true s
  broken : ∀ done rest s, done ++ rest = bytes → rest ≠ [] → E.broken (t.sends done) → J s →
    post (t.sends done) false s

theorem Writes.obeys_writeLoop {rounds : Nat} {bytes done rest : Bytes}
    {post : Traffic → Bool → Node → Prop} (h : Writes E J t bytes post) (hJ : Stable E J) (hs : J s)
    (hbytes : done ++ rest = bytes) (hrounds : rest.length ≤ rounds) :
    (writeLoop rounds rest).Obeys nodePort E post (t.sends done) s := by
  have hall : ∀ s, J s → rest = [] → post (t.sends done) true s := by
    intro s hs hnil
    rw [hnil, List.append_nil] at hbytes
    rw [hbytes]
    exact h.full s hs
  induction rounds generalizing done rest s with
  | zero =>
      have hnil : rest = [] := List.eq_nil_of_length_eq_zero (by omega)
      simp only [writeLoop, hnil]
      exact hall s hs hnil
  | succ rounds ih =>
      simp only [writeLoop]
      split
      · rename_i hempty
        exact hall s hs (by simpa using hempty)
      · rename_i hne
        have hne : rest ≠ [] := by simpa using hne
        refine Obeys.bind (obeys_ask (waits_streamWrite hne (h.wait done rest s hbytes hne hs)) ?_)
        intro count s' hfinds hbroken
        simp only [nodePort, Traffic.after, Traffic.sends_sends]
        have hs' := hJ s s' hs hfinds
        split
        · rename_i hzero
          rw [hzero, List.take_zero, List.append_nil]
          exact h.broken done rest s' hbytes hne (hbroken hzero) hs'
        · rename_i hpos
          have hmore : done ++ rest.take count.val ++ rest.drop count.val = bytes := by
            rw [List.append_assoc, List.take_append_drop, hbytes]
          refine ih hs' hmore ?_ ?_
          · rw [List.length_drop]
            omega
          · intro s hs hnil
            rw [hnil, List.append_nil] at hmore
            rw [hmore]
            exact h.full s hs

theorem Writes.obeys_writeExact {bytes : Bytes} {post : Traffic → Bool → Node → Prop}
    (h : Writes E J t bytes post) (hJ : Stable E J) (hs : J s) :
    (writeExact bytes).Obeys nodePort E post t s := by
  have hloop := @Writes.obeys_writeLoop E J t s bytes.length bytes [] bytes post h hJ hs rfl
    (Nat.le_refl _)
  rwa [Traffic.sends_nil] at hloop

theorem Writes.left {a b : Bytes} {post post' : Traffic → Bool → Node → Prop}
    (h : Writes E J t (a ++ b) post)
    (hfull : ∀ s, J s → Writes E J (t.sends a) b post → post' (t.sends a) true s)
    (hfalse : ∀ t s, post t false s → post' t false s) : Writes E J t a post' where
  wait done rest s hdone hrest hs :=
    h.wait done (rest ++ b) s (by rw [← hdone, List.append_assoc]) (by simp [hrest]) hs
  full s hs := by
    refine hfull s hs ⟨fun done rest s hdone hrest hs => ?_, fun s hs => ?_,
      fun done rest s hdone hrest hbroken hs => ?_⟩
    · rw [Traffic.sends_sends]
      exact h.wait (a ++ done) rest s (by rw [← hdone, List.append_assoc]) hrest hs
    · rw [Traffic.sends_sends]
      exact h.full s hs
    · rw [Traffic.sends_sends] at hbroken ⊢
      exact h.broken (a ++ done) rest s (by rw [← hdone, List.append_assoc]) hrest hbroken hs
  broken done rest s hdone hrest hbroken hs :=
    hfalse _ s (h.broken done (rest ++ b) s (by rw [← hdone, List.append_assoc]) (by simp [hrest])
      hbroken hs)

theorem Writes.obeys_writeMessage {header : ChunkMessageHeader} {chunkId : Bytes}
    {post : Traffic → Bool → Node → Prop}
    (h : Writes E J t (headerBytes header ++ chunkId) post) (hJ : Stable E J) (hs : J s) :
    (writeMessage header chunkId).Obeys nodePort E post t s := by
  refine Obeys.bind ((h.left (fun s hs hrest => ?_) fun t s hpost => ?_).obeys_writeExact hJ hs)
  · exact hrest.obeys_writeExact hJ hs
  · exact hpost

/-! ## Bandwidth -/

theorem obeys_acquire {direction : Direction} {n : Nat} {post : Traffic → Unit → Node → Prop}
    (hJ : Paced E J) (hs : J s) (hholds : ∀ s, J s → E.holds t s)
    (hpost : ∀ s, J s → post t () s) :
    (acquire direction n).Obeys nodePort E post t s := by
  refine Obeys.bind (obeys_onTransfer ?_)
  have hkept : ∀ t', t'.contexts = s.transfer.contexts → J { s with transfer := t' } :=
    fun t' ht => hJ.transfer s t' hs ht
  cases direction with
  | upload =>
      have hs' := hkept { s.transfer with
        steadyTicks := s.transfer.steadyTicks + 1
        uploadLimiter := (s.transfer.uploadLimiter.acquire
          (s.transfer.steady s.transfer.steadyTicks) n).2 } rfl
      simp only
      split
      · exact hpost _ hs'
      · refine obeys_ask ⟨hholds _ hs', _, hJ.sleeps _⟩ fun _ s' hfinds _ => ?_
        exact hpost s' (hJ.stable _ s' hs' hfinds)
  | download =>
      have hs' := hkept { s.transfer with
        steadyTicks := s.transfer.steadyTicks + 1
        downloadLimiter := (s.transfer.downloadLimiter.acquire
          (s.transfer.steady s.transfer.steadyTicks) n).2 } rfl
      simp only
      split
      · exact hpost _ hs'
      · refine obeys_ask ⟨hholds _ hs', _, hJ.sleeps _⟩ fun _ s' hfinds _ => ?_
        exact hpost s' (hJ.stable _ s' hs' hfinds)

theorem Writes.obeys_sendSlices {rounds : Nat} {bytes : Bytes}
    {post : Traffic → Bool → Node → Prop} (h : Writes E J t bytes post) (hJ : Paced E J) (hs : J s)
    (hrounds : bytes.length ≤ rounds) :
    (sendSlices rounds bytes).Obeys nodePort E post t s := by
  induction rounds generalizing bytes t s with
  | zero =>
      have hnil : bytes = [] := List.eq_nil_of_length_eq_zero (by omega)
      subst hnil
      have hfull := h.full s hs
      rwa [Traffic.sends_nil] at hfull
  | succ rounds ih =>
      simp only [sendSlices]
      split
      · rename_i hempty
        have hnil : bytes = [] := by simpa using hempty
        subst hnil
        have hfull := h.full s hs
        rwa [Traffic.sends_nil] at hfull
      · rename_i hne
        have hne : bytes ≠ [] := by simpa using hne
        have hpos : 0 < bytes.length := List.length_pos_of_ne_nil hne
        have hwait : ∀ s, J s → E.holds t s := by
          intro s hs
          have hholds := h.wait [] bytes s rfl hne hs
          rwa [Traffic.sends_nil] at hholds
        refine Obeys.bind (obeys_acquire hJ hs hwait fun s hs => ?_)
        have hsplit : Writes E J t (bytes.take sliceSize ++ bytes.drop sliceSize) post := by
          rwa [List.take_append_drop]
        refine Obeys.bind ((hsplit.left (fun s hs hrest => ?_) fun t s hpost => ?_).obeys_writeExact
          hJ.stable hs)
        · refine ih hrest hs ?_
          rw [List.length_drop, sliceSize]
          omega
        · exact hpost

theorem Gets.obeys_receiveLoop {ctx total rounds : Nat} {data : Bytes}
    {post : Traffic → Except PeerDownloadResult Bytes → Node → Prop}
    (h : Gets E J t total fun t got s => post t (.ok got) s) (hJ : Paced E J) (hs : J s)
    (hrunning : ∀ s, J s → s.transfer.isStopped ctx = false)
    (hopen : ∀ got : Bytes, got.length < total → ¬E.eof (t.gets got))
    (hrounds : total ≤ data.length + rounds) (hdata : data.length ≤ total)
    (hin : E.input (t.received ++ data)) :
    (receiveData ctx total rounds data).Obeys nodePort E post (t.gets data) s := by
  induction rounds generalizing data s with
  | zero => exact h.full data s (by omega) hin hs
  | succ rounds ih =>
      simp only [receiveData]
      split
      · rename_i hlt
        refine Obeys.bind (obeys_onTransfer ?_)
        simp only [hrunning s hs, Bool.false_eq_true, if_false]
        refine Obeys.bind (obeys_acquire hJ hs (fun s hs => (h.wait data s hlt hin hs).1) ?_)
        intro s hs
        have hslice : ∀ got : Bytes, got.length ≤ min sliceSize (total - data.length) →
            (data ++ got).length ≤ total := by
          intro got hgot
          rw [List.length_append]
          omega
        have hpos : 0 < min sliceSize (total - data.length) := by
          rw [sliceSize]
          omega
        refine Obeys.bind (Gets.obeys_readExact (J := J) ⟨fun got s hgot hin hs => ?_,
          fun got s hgot hin hs => ?_, fun got s hgot heof hs => ?_⟩ hJ.stable hs hin)
        · rw [Traffic.gets_gets]
          rw [Traffic.gets_received, List.append_assoc] at hin
          refine h.wait (data ++ got) s ?_ hin hs
          rw [List.length_append]
          omega
        · rw [Traffic.gets_gets]
          rw [Traffic.gets_received, List.append_assoc] at hin
          split
          · rename_i hempty
            have hnil : got = [] := by simpa using hempty
            rw [hnil, List.length_nil] at hgot
            omega
          · refine ih hs ?_ (hslice got hgot.le) hin
            rw [List.length_append]
            omega
        · rw [Traffic.gets_gets] at heof
          refine absurd heof (hopen (data ++ got) ?_)
          rw [List.length_append]
          omega
      · exact h.full data s (by omega) hin hs

theorem Gets.obeys_receiveData {ctx total : Nat}
    {post : Traffic → Except PeerDownloadResult Bytes → Node → Prop}
    (h : Gets E J t total fun t got s => post t (.ok got) s) (hJ : Paced E J) (hs : J s)
    (hrunning : ∀ s, J s → s.transfer.isStopped ctx = false)
    (hopen : ∀ got : Bytes, got.length < total → ¬E.eof (t.gets got))
    (hin : E.input t.received) :
    (receiveData ctx total total []).Obeys nodePort E post t s := by
  have hloop := @Gets.obeys_receiveLoop E J t s ctx total total [] post h hJ hs hrunning hopen
    (Nat.le_add_left _ _) (Nat.zero_le _) (by simpa using hin)
  rwa [Traffic.gets_nil] at hloop

end ElioP2P.P2P
