import ElioP2P.Control.Proofs.ChunkRounds
import ElioP2P.Library.Runs

/-!
# Where a response can lead its reader

A chunk takes the decoder from one position of the stream to the next, and the
sum of position and size is that of 64-bit numbers.  As long as no sum wraps
around, each chunk lies behind the one before, so that there are no more chunks
and no more bytes in the body than bytes in the stream.  A sum that wraps around
takes the decoder back.
-/

namespace ElioP2P.Control.SimpleHttpClient

open ElioP2P.Library
open Relation (ReflTransGen TransGen)

/-! ## Chunks that follow each other -/

/-- No size that the decoder comes to from `pos` on makes the sum wrap around. -/
def SizesFit (stream : Bytes) (pos : Nat) : Prop :=
  ∀ pos', ReflTransGen (NextChunk stream) pos pos' →
    ∀ start size, ChunkAt stream pos' start size → size ≠ 0 → start + size + 2 < 2 ^ 64

/-- The decoder has as many rounds as there are bytes, and takes no byte twice. -/
theorem decodeChunks_bounded {fuel : Nat} {c : Inflow recvLimit} {pos : Nat} {body : Bytes}
    (hfit : SizesFit c.stream pos) (hbody : body.length ≤ pos) (hpos : pos ≤ c.stream.length)
    (hfuel : c.stream.length < pos + fuel) :
    ∃ result, decodeChunks fuel c pos body = some result ∧
      ∀ decoded, result = .ok decoded → decoded.length ≤ c.stream.length := by
  induction fuel generalizing c pos body with
  | zero => omega
  | succ fuel ih =>
      obtain ⟨run, hround, hrun⟩ := exists_round c pos body
      rw [hrun]
      cases hround with
      | fails message hnone => exact ⟨_, rfl, fun decoded h => nomatch h⟩
      | ends hchunk =>
          refine ⟨_, rfl, fun decoded h => ?_⟩
          cases h
          exact hbody.trans hpos
      | @continues start size c' hchunk hnext hstream hbuffered =>
          have hbounds := hchunk.bounds
          have hsum : wrap (start + size + 2) = start + size + 2 := by
            obtain ⟨start', size', hchunk', hsize, -⟩ := hnext
            obtain ⟨rfl, rfl⟩ := hchunk.unique hchunk'
            exact Nat.mod_eq_of_lt (hfit pos .refl start size hchunk hsize)
          have hnext' : wrap (start + size + 2) ≤ c.stream.length := by
            obtain ⟨-, -, -, -, -, hle⟩ := hnext
            exact hle
          have hlength : (body ++ substr c'.buffer start size).length ≤ start + size + 2 := by
            rw [List.length_append, substr, List.length_take]
            omega
          rw [← hstream] at hnext' ⊢
          refine ih ?_ (by rwa [hsum]) hnext' (by rw [hsum, hstream]; omega)
          rw [hstream]
          exact fun pos' hreach => hfit pos' (.head hnext hreach)

theorem sizesFit_of_last {stream : Bytes} {pos start : Nat} (h : ChunkAt stream pos start 0) :
    SizesFit stream pos := by
  intro pos' hreach start' size' hchunk' hsize
  rcases hreach.cases_head with rfl | ⟨next, ⟨start'', size, hchunk, hnonzero, -⟩, -⟩
  · exact absurd (h.unique hchunk').2.symm hsize
  · exact absurd (h.unique hchunk).2.symm hnonzero

theorem sizesFit_of_next {stream : Bytes} {pos start size : Nat} (h : ChunkAt stream pos start size)
    (hlt : start + size + 2 < 2 ^ 64) (hrest : SizesFit stream (start + size + 2)) :
    SizesFit stream pos := by
  intro pos' hreach start' size' hchunk' hsize
  rcases hreach.cases_head with rfl | ⟨next, ⟨start'', size'', hchunk, -, rfl, -⟩, hreach⟩
  · obtain ⟨rfl, rfl⟩ := h.unique hchunk'
    exact hlt
  · obtain ⟨rfl, rfl⟩ := h.unique hchunk
    rw [wrap, Nat.mod_eq_of_lt hlt] at hreach
    exact hrest pos' hreach start' size' hchunk' hsize

def ChunksFit (stream : Bytes) : Prop :=
  ∀ headerEnd, find stream (crlf ++ crlf) 0 = some headerEnd →
    statusCode stream ≠ none → isChunked (responseHeaders stream headerEnd) = true →
      SizesFit stream (headerEnd + 4)

theorem readSized_bounded {c : Inflow recvLimit} {status status' : Int} {bodyStart : Nat}
    {value body : Bytes} (h : readSized c status bodyStart value = .received status' body) :
    body.length ≤ c.stream.length := by
  unfold readSized at h
  cases hvalue : stoull value with
  | none => simp [hvalue] at h
  | some contentLength =>
      obtain ⟨-, c', hawait⟩ | ⟨_, c', -, hawait, hstream, -⟩ :=
        (persistent_atLeast (wrap (bodyStart + contentLength))).await_cases c
      · simp [hvalue, hawait] at h
      · simp only [hvalue, hawait, ParsedResponse.received.injEq] at h
        have hstart := c'.buffer_isPrefix.length_le
        rw [← h.2, ← hstream, substr, List.length_take, List.length_drop]
        omega

theorem readToEnd_bounded {c : Inflow recvLimit} {status status' : Int} {bodyStart : Nat}
    {body : Bytes} (h : readToEnd c status bodyStart = .received status' body) :
    body.length ≤ c.stream.length := by
  cases h
  have hstart := (c.await fun _ => (none : Option Unit)).2.buffer_isPrefix.length_le
  rw [Inflow.stream_await] at hstart
  rw [List.length_drop]
  omega

/-! ## Chunks that lead back -/

/-- The decoder comes back to a position. -/
def GoesInCircles (stream : Bytes) : Prop :=
  ∃ headerEnd, find stream (crlf ++ crlf) 0 = some headerEnd ∧ statusCode stream ≠ none ∧
    isChunked (responseHeaders stream headerEnd) = true ∧
      ∃ pos, ReflTransGen (NextChunk stream) (headerEnd + 4) pos ∧
        TransGen (NextChunk stream) pos pos

theorem decodeChunks_eq_none {stream : Bytes} {pos turn : Nat}
    (hturn : TransGen (NextChunk stream) turn turn) (hpos : TransGen (NextChunk stream) pos turn)
    (fuel : Nat) {c : Inflow recvLimit} (hstream : c.stream = stream) (body : Bytes) :
    decodeChunks fuel c pos body = none := by
  induction fuel generalizing c pos body with
  | zero => rfl
  | succ fuel ih =>
      obtain ⟨pos', hnext, hrest⟩ := Library.exists_next_of_transGen hturn hpos
      obtain ⟨run, hround, hrun⟩ := exists_round c pos body
      rw [← hstream] at hnext
      rw [hrun]
      cases hround with
      | fails message hnone => exact absurd hnext (hnone.not_nextChunk pos')
      | ends hchunk => exact absurd hnext (hchunk.not_nextChunk pos')
      | continues hchunk hnext' hstream' hbuffered =>
          rw [hnext'.unique hnext]
          exact ih hrest (hstream'.trans hstream) _

theorem exists_decodeChunks_isSome {stream : Bytes} {pos : Nat}
    (hacc : Acc (fun pos' pos => NextChunk stream pos pos') pos) :
    ∃ fuel, ∀ (c : Inflow recvLimit) (body : Bytes), c.stream = stream →
      (decodeChunks fuel c pos body).isSome = true := by
  induction hacc with
  | intro pos _ ih =>
      by_cases hnext : ∃ pos', NextChunk stream pos pos'
      · obtain ⟨pos', hnext⟩ := hnext
        obtain ⟨fuel, hfuel⟩ := ih pos' hnext
        refine ⟨fuel + 1, fun c body hstream => ?_⟩
        obtain ⟨run, hround, hrun⟩ := exists_round c pos body
        rw [hrun]
        cases hround with
        | fails message hnone => rfl
        | ends hchunk => rfl
        | continues hchunk hnext' hstream' hbuffered =>
            rw [hstream] at hnext'
            rw [hnext'.unique hnext]
            exact hfuel _ _ (hstream'.trans hstream)
      · refine ⟨1, fun c body hstream => ?_⟩
        obtain ⟨run, hround, hrun⟩ := exists_round c pos body
        rw [hrun]
        cases hround with
        | fails message hnone => rfl
        | ends hchunk => rfl
        | continues hchunk hnext' hstream' hbuffered => exact absurd ⟨_, hstream ▸ hnext'⟩ hnext

theorem finite_reachable (stream : Bytes) (start : Nat) :
    {pos | ReflTransGen (NextChunk stream) start pos}.Finite := by
  refine (Set.finite_le_nat (max start stream.length)).subset fun pos hreach => ?_
  rcases hreach.cases_tail with rfl | ⟨_, -, ⟨_, _, -, -, -, hle⟩⟩
  · exact Nat.le_max_left pos stream.length
  · exact Nat.le_trans hle (Nat.le_max_right start stream.length)

/-- The response parsing comes to its end, for any cut of the stream, exactly if
no chunk leads the decoder back to a position where it has been. -/
theorem parseResponse_isSome_iff (pieces : List (Piece recvLimit)) :
    (∃ fuel, (parseResponse fuel pieces).isSome = true) ↔
      ¬ GoesInCircles (pieces.flatMap Subtype.val) := by
  constructor
  · rintro ⟨fuel, hsome⟩ ⟨headerEnd, hend, hstatus, hchunked, turn, hreach, hturn⟩
    obtain ⟨c, hstream, hhead, hparse⟩ := parseResponse_of_find hend
    obtain ⟨status, hcode⟩ := Option.ne_none_iff_exists'.mp hstatus
    rw [hparse, hcode] at hsome
    simp only [readBody, hhead.responseHeaders_eq, hchunked, if_true] at hsome
    rw [decodeChunks_eq_none hturn (hturn.trans_right hreach) fuel hstream] at hsome
    cases hsome
  · intro hcircles
    cases hend : find (pieces.flatMap Subtype.val) (crlf ++ crlf) 0 with
    | none => exact ⟨0, by rw [parseResponse_of_find_none hend]; rfl⟩
    | some headerEnd =>
        obtain ⟨c, hstream, hhead, hparse⟩ := parseResponse_of_find hend
        simp only [hparse]
        cases hstatus : statusCode (pieces.flatMap Subtype.val) with
        | none => exact ⟨0, rfl⟩
        | some status =>
            simp only [readBody, hhead.responseHeaders_eq]
            cases hchunked : isChunked (responseHeaders (pieces.flatMap Subtype.val) headerEnd) with
            | true =>
                obtain ⟨fuel, hfuel⟩ := exists_decodeChunks_isSome (Library.acc_of_not_transGen
                  (finite_reachable (pieces.flatMap Subtype.val) (headerEnd + 4))
                  fun turn hreach hturn => hcircles
                    ⟨headerEnd, hend, by rw [hstatus]; nofun, hchunked, turn, hreach, hturn⟩)
                refine ⟨fuel, ?_⟩
                rw [if_pos rfl, Option.isSome_map]
                exact hfuel c [] hstream
            | false =>
                simp only [Bool.false_eq_true, if_false]
                split <;> exact ⟨0, rfl⟩

/-! ## The limits -/

/-- The response parsing comes to its end within as many chunks as there are
bytes, and the body is no longer than the stream, if no chunk size makes the
position wrap around. -/
theorem parseResponse_bounded (pieces : List (Piece recvLimit))
    (hfit : ChunksFit (pieces.flatMap Subtype.val)) :
    ∃ response,
      (∀ fuel > (pieces.flatMap Subtype.val).length,
        parseResponse fuel pieces = some response) ∧
      ∀ status body, response = .received status body →
        body.length ≤ (pieces.flatMap Subtype.val).length := by
  cases hend : find (pieces.flatMap Subtype.val) (crlf ++ crlf) 0 with
  | none => exact ⟨_, fun fuel _ => parseResponse_of_find_none hend fuel, fun _ _ h => nomatch h⟩
  | some headerEnd =>
      obtain ⟨c, hstream, hhead, hparse⟩ := parseResponse_of_find hend
      simp only [hparse]
      cases hstatus : statusCode (pieces.flatMap Subtype.val) with
      | none => exact ⟨_, fun _ _ => rfl, fun _ _ h => nomatch h⟩
      | some status =>
          simp only [readBody, hhead.responseHeaders_eq]
          rw [← hstream] at hfit hend hhead hstatus ⊢
          cases hchunked : isChunked (responseHeaders c.stream headerEnd) with
          | true =>
              have hsizes := hfit headerEnd hend (by rw [hstatus]; nofun) hchunked
              have hpos := hhead.headerEnd_le.trans c.buffer_isPrefix.length_le
              have hfuel : c.stream.length < headerEnd + 4 + (c.stream.length + 1) := by omega
              have hempty : ([] : Bytes).length ≤ headerEnd + 4 := Nat.zero_le _
              obtain ⟨result, hresult, hlength⟩ := decodeChunks_bounded hsizes hempty hpos hfuel
              refine ⟨.ofDecoded status result, fun fuel hfuel => ?_, fun status' body h => ?_⟩
              · rw [if_pos rfl, decodeChunks_mono hfuel hresult]
                rfl
              · cases result with
                | error message => cases h
                | ok decoded =>
                    cases h
                    exact hlength body rfl
          | false =>
              simp only [Bool.false_eq_true, if_false]
              cases (responseHeaders c.stream headerEnd).lookup (ascii "content-length") with
              | none => exact ⟨_, fun _ _ => rfl, fun _ _ => readToEnd_bounded⟩
              | some value => exact ⟨_, fun _ _ => rfl, fun _ _ => readSized_bounded⟩

def sampleChunked : Bytes :=
  lineBlock (ascii "HTTP/1.1 200 OK") [ascii "Transfer-Encoding: chunked"] ++
    (crlf ++ crlf ++ ascii "2\r\nhi\r\n0\r\n\r\n")

theorem parseResponse_bounded_sample :
    ∃ response,
      (∀ fuel > sampleChunked.length,
        parseResponse fuel [⟨sampleChunked, by decide⟩] = some response) ∧
      ∀ status body, response = .received status body → body.length ≤ sampleChunked.length := by
  have hfit : ChunksFit sampleChunked := by
    intro headerEnd hfind _ _
    obtain rfl : 43 = headerEnd := Option.some.inj hfind
    exact sizesFit_of_next ⟨48, rfl, rfl, rfl⟩ (by decide) (sizesFit_of_last ⟨55, rfl, rfl, rfl⟩)
  exact parseResponse_bounded [⟨sampleChunked, by decide⟩] hfit

/-- A size that takes the decoder back to the beginning of its own line. -/
def sampleCircle : Bytes :=
  lineBlock (ascii "HTTP/1.1 200 OK") [ascii "Transfer-Encoding: chunked"] ++
    (crlf ++ crlf ++ ascii "FFFFFFFFFFFFFFEC\r\n")

theorem not_parseResponse_bounded :
    ¬ ∃ fuel, (parseResponse fuel [⟨sampleCircle, by decide⟩]).isSome = true := by
  rw [parseResponse_isSome_iff, not_not, List.flatMap_cons, List.flatMap_nil, List.append_nil]
  have hheaders : responseHeaders sampleCircle 43 =
      [ascii "Transfer-Encoding: chunked"].foldl addHeader ∅ :=
    responseHeaders_lineBlock (by decide) (by simp [IsLine]; decide) (by decide) _
  have hcircle : NextChunk sampleCircle 47 47 :=
    ⟨65, 2 ^ 64 - 20, ⟨63, rfl, rfl, rfl⟩, by decide, by decide, by decide⟩
  refine ⟨43, rfl, by decide, ?_, 47, .refl, .single hcircle⟩
  rw [hheaders]
  decide

end ElioP2P.Control.SimpleHttpClient
