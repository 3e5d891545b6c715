import ElioP2P.Control.Proofs.ResponseHead

/-!
# The rounds of the chunk decoder

Each chunk takes the decoder from one position of the stream to the next.  Both
are given by the stream alone; how it is cut into pieces only decides how much
is in the buffer when a chunk is copied.
-/

namespace ElioP2P.Control.SimpleHttpClient

open ElioP2P.Library

/-- The line at `pos` of the stream gives the size of a chunk that starts at
`start`. -/
def ChunkAt (stream : Bytes) (pos start size : Nat) : Prop :=
  ∃ eol, find stream crlf pos = some eol ∧ start = eol + 2 ∧
    chunkSize stream pos eol = some size

def NextChunk (stream : Bytes) (pos pos' : Nat) : Prop :=
  ∃ start size, ChunkAt stream pos start size ∧ size ≠ 0 ∧ pos' = wrap (start + size + 2) ∧
    pos' ≤ stream.length

theorem ChunkAt.bounds {stream : Bytes} {pos start size : Nat} (h : ChunkAt stream pos start size) :
    pos + 2 ≤ start ∧ start ≤ stream.length := by
  obtain ⟨eol, hfind, rfl, -⟩ := h
  have hbounds := find_bounds hfind
  exact ⟨Nat.add_le_add_right hbounds.1 2, hbounds.2⟩

theorem ChunkAt.unique {stream : Bytes} {pos start start' size size' : Nat}
    (h : ChunkAt stream pos start size) (h' : ChunkAt stream pos start' size') :
    start = start' ∧ size = size' := by
  obtain ⟨eol, hfind, rfl, hsize⟩ := h
  obtain ⟨eol', hfind', rfl, hsize'⟩ := h'
  cases hfind.symm.trans hfind'
  exact ⟨rfl, Option.some.inj (hsize.symm.trans hsize')⟩

theorem NextChunk.unique {stream : Bytes} {pos p q : Nat} (hp : NextChunk stream pos p)
    (hq : NextChunk stream pos q) : p = q := by
  obtain ⟨start, size, hchunk, -, rfl, -⟩ := hp
  obtain ⟨start', size', hchunk', -, rfl, -⟩ := hq
  obtain ⟨rfl, rfl⟩ := hchunk.unique hchunk'
  rfl

theorem chunkSize_of_isPrefix {buffer stream : Bytes} {pos eol : Nat} (hstart : buffer <+: stream)
    (hfind : find buffer crlf pos = some eol) :
    chunkSize buffer pos eol = chunkSize stream pos eol := by
  obtain ⟨more, rfl⟩ := hstart
  have hbounds := find_bounds hfind
  rw [chunkSize, chunkSize, substr_append_of_le more (by omega)]

theorem ChunkAt.not_nextChunk {stream : Bytes} {pos start : Nat} (h : ChunkAt stream pos start 0)
    (pos' : Nat) : ¬ NextChunk stream pos pos' := by
  rintro ⟨start', size, hchunk, hsize, -⟩
  exact hsize (h.unique hchunk).2.symm

def NoChunk (stream : Bytes) (pos : Nat) : Prop :=
  ∀ start size, ChunkAt stream pos start size →
    size ≠ 0 ∧ stream.length < wrap (start + size + 2)

theorem NoChunk.not_nextChunk {stream : Bytes} {pos : Nat} (h : NoChunk stream pos) (pos' : Nat) :
    ¬ NextChunk stream pos pos' := by
  rintro ⟨start, size, hchunk, -, rfl, hle⟩
  exact Nat.not_lt.mpr hle (h start size hchunk).2

/-- What a round of the decoder does, in terms of the stream. -/
inductive Round (c : Inflow recvLimit) (pos : Nat) (body : Bytes) :
    (Nat → Option (Except Bytes Bytes)) → Prop
  | fails (message : Bytes) (hnone : NoChunk c.stream pos) :
      Round c pos body fun _ => some (.error message)
  | ends {start : Nat} (hchunk : ChunkAt c.stream pos start 0) :
      Round c pos body fun _ => some (.ok body)
  | continues {start size : Nat} {c' : Inflow recvLimit} (hchunk : ChunkAt c.stream pos start size)
      (hnext : NextChunk c.stream pos (wrap (start + size + 2))) (hstream : c'.stream = c.stream)
      (hbuffered : wrap (start + size + 2) ≤ c'.buffer.length) :
      Round c pos body fun fuel =>
        decodeChunks fuel c' (wrap (start + size + 2)) (body ++ substr c'.buffer start size)

theorem round_of_size {c c₁ : Inflow recvLimit} {pos start size : Nat} (body : Bytes)
    (hstream : c₁.stream = c.stream) (hchunk : ChunkAt c.stream pos start size) (hsize : size ≠ 0) :
    Round c pos body fun fuel =>
      match c₁.await (atLeast (wrap (start + size + 2))) with
      | (none, _) => some (.error (ascii "Invalid response: truncated chunk data"))
      | (some (), c) =>
          decodeChunks fuel c (wrap (start + size + 2)) (body ++ substr c.buffer start size) := by
  obtain ⟨hshort, c₂, hawait⟩ | ⟨_, c₂, hneed, hawait, hstream', hbuffer⟩ :=
    (persistent_atLeast (wrap (start + size + 2))).await_cases c₁
  · rw [hstream] at hshort
    simp only [hawait]
    refine .fails _ fun start' size' hchunk' => ?_
    obtain ⟨rfl, rfl⟩ := hchunk.unique hchunk'
    refine ⟨hsize, Nat.lt_of_not_le fun hle => ?_⟩
    cases hshort.symm.trans (atLeast_eq_some_iff.mpr hle)
  · rw [hstream] at hneed hstream'
    simp only [hawait]
    exact .continues hchunk ⟨_, _, hchunk, hsize, rfl, atLeast_eq_some_iff.mp hneed⟩ hstream'
      (atLeast_eq_some_iff.mp hbuffer)

theorem decodeChunks_round (c : Inflow recvLimit) (pos : Nat) (body : Bytes) :
    Round c pos body fun fuel => decodeChunks (fuel + 1) c pos body := by
  unfold decodeChunks
  obtain ⟨hnone, c₁, hawait⟩ | ⟨eol, c₁, hfound, hawait, hstream, hbuffer⟩ :=
    (persistent_find crlf pos).await_cases c
  · simp only [hawait]
    refine .fails _ fun start size hchunk => ?_
    obtain ⟨eol, hfind, -⟩ := hchunk
    cases hnone.symm.trans hfind
  · have hread : chunkSize c₁.buffer pos eol = chunkSize c.stream pos eol :=
      chunkSize_of_isPrefix (hstream ▸ c₁.buffer_isPrefix) hbuffer
    simp only [hawait, hread]
    cases hsize : chunkSize c.stream pos eol with
    | none =>
        refine .fails _ fun start size hchunk => ?_
        obtain ⟨eol', hfind, -, hsize'⟩ := hchunk
        cases hfound.symm.trans hfind
        cases hsize.symm.trans hsize'
    | some size =>
        have hchunk : ChunkAt c.stream pos (eol + 2) size := ⟨eol, hfound, rfl, hsize⟩
        by_cases hzero : size = 0
        · subst hzero
          exact .ends hchunk
        · simp only [if_neg hzero]
          exact round_of_size body hstream hchunk hzero

theorem exists_round (c : Inflow recvLimit) (pos : Nat) (body : Bytes) :
    ∃ run, Round c pos body run ∧ ∀ fuel, decodeChunks (fuel + 1) c pos body = run fuel :=
  ⟨_, decodeChunks_round c pos body, fun _ => rfl⟩

theorem decodeChunks_mono {fuel fuel' : Nat} {c : Inflow recvLimit} {pos : Nat} {body : Bytes}
    {result : Except Bytes Bytes} (hle : fuel ≤ fuel')
    (h : decodeChunks fuel c pos body = some result) :
    decodeChunks fuel' c pos body = some result := by
  induction fuel generalizing fuel' c pos body with
  | zero => cases h
  | succ fuel ih =>
      obtain ⟨more, rfl⟩ := Nat.exists_eq_add_of_le' hle
      obtain ⟨run, hround, hrun⟩ := exists_round c pos body
      rw [hrun] at h
      rw [← Nat.add_assoc, hrun]
      cases hround with
      | fails message hnone => exact h
      | ends hchunk => exact h
      | continues hchunk hnext hstream hbuffered => exact ih (Nat.le_add_left fuel more) h

end ElioP2P.Control.SimpleHttpClient
