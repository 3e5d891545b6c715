import ElioP2P.Control.HttpClient

/-!
# The head of a response

What the client reads from a status line and header lines that an empty line
ends, and that it reads the same from the buffer in which it has found the empty
line as it would from the whole stream.
-/

namespace ElioP2P.Control.SimpleHttpClient

open ElioP2P.Library

/-! ## Whole blocks -/

theorem find_crlf_lineBlock {first : Bytes} (hfirst : 13 ∉ first) (lines : List Bytes)
    (rest : Bytes) :
    find (lineBlock first lines ++ (crlf ++ crlf ++ rest)) crlf 0 = some first.length := by
  obtain ⟨tail, htail⟩ := exists_crlf_append lines rest
  rw [lineBlock, List.append_assoc, htail]
  exact find_first_of_notMem hfirst [10] tail

theorem statusCode_lineBlock {version code : Bytes} (hspace : 32 ∉ version)
    (hfirst : 13 ∉ version ++ 32 :: code) (lines : List Bytes) (rest : Bytes) :
    statusCode (lineBlock (version ++ 32 :: code) lines ++ (crlf ++ crlf ++ rest)) =
      stoi code := by
  have hline := find_crlf_lineBlock hfirst lines rest
  obtain ⟨tail, htail⟩ : ∃ tail, lineBlock (version ++ 32 :: code) lines ++ (crlf ++ crlf ++ rest) =
      version ++ ([32] ++ (code ++ tail)) := by
    refine ⟨lines.flatMap (fun line => crlf ++ line) ++ (crlf ++ crlf ++ rest), ?_⟩
    simp [lineBlock]
  have hpos : find (version ++ ([32] ++ (code ++ tail))) (ascii " ") 0 = some version.length :=
    find_first_of_notMem hspace [] (code ++ tail)
  have hcode : substr (version ++ ([32] ++ (code ++ tail))) (version.length + 1) code.length =
      code := by
    have hfront := substr_front (version ++ [32]) code tail
    rwa [List.append_assoc, List.length_append] at hfront
  have hcount : (version ++ 32 :: code).length - version.length - 1 = code.length := by
    rw [List.length_append, List.length_cons]
    omega
  rw [htail] at hline ⊢
  simp only [statusCode, hline, hpos, Option.getD_some, hcount, hcode]
  rw [if_pos (by rw [List.length_append, List.length_cons]; omega)]

theorem readHeaders_of_lt {response : Bytes} {headerEnd hpos : Nat} (h : hpos < headerEnd)
    (headers : Headers) :
    readHeaders response headerEnd hpos headers =
      readHeaders response headerEnd (headerLineEnd response headerEnd hpos + 2)
        (addHeader headers
          (substr response hpos (headerLineEnd response headerEnd hpos - hpos))) := by
  rw [readHeaders, dif_pos h]

theorem readHeaders_line {line : Bytes} (hline : IsLine line) (front tail : Bytes)
    {headerEnd : Nat} (hend : front.length + line.length ≤ headerEnd) (headers : Headers) :
    readHeaders (front ++ (line ++ (crlf ++ tail))) headerEnd front.length headers =
      readHeaders (front ++ (line ++ (crlf ++ tail))) headerEnd (front.length + line.length + 2)
        (addHeader headers line) := by
  have hlength := List.length_pos_of_ne_nil hline.1
  have hlineEnd : headerLineEnd (front ++ (line ++ (crlf ++ tail))) headerEnd front.length =
      front.length + line.length := by
    rw [headerLineEnd, find_crlf hline.2]
    exact if_neg (Nat.not_lt.mpr hend)
  rw [readHeaders_of_lt (by omega), hlineEnd, Nat.add_sub_cancel_left, substr_front]

theorem readHeaders_lines {lines : List Bytes} (hlines : ∀ line ∈ lines, IsLine line)
    (front rest : Bytes) (headers : Headers) :
    readHeaders (front ++ (lines.flatMap (fun line => crlf ++ line) ++ (crlf ++ crlf ++ rest)))
        (front.length + (lines.flatMap fun line => crlf ++ line).length) (front.length + 2)
        headers =
      lines.foldl addHeader headers := by
  induction lines generalizing front headers with
  | nil =>
      rw [readHeaders, dif_neg (by simp)]
      rfl
  | cons line lines ih =>
      obtain ⟨hline, hrest⟩ := List.forall_mem_cons.mp hlines
      obtain ⟨tail, htail⟩ := exists_crlf_append lines rest
      have hsplit : front ++ ((line :: lines).flatMap (fun line => crlf ++ line) ++
          (crlf ++ crlf ++ rest)) = (front ++ crlf) ++ (line ++ (crlf ++ tail)) := by
        rw [← htail]
        simp only [List.flatMap_cons, List.append_assoc]
      have hstart : front.length + 2 = (front ++ crlf).length := by rw [List.length_append]; rfl
      have hnext : (front ++ crlf ++ line).length = (front ++ crlf).length + line.length :=
        List.length_append
      have hend : front.length + ((line :: lines).flatMap fun line => crlf ++ line).length =
          (front ++ crlf ++ line).length + (lines.flatMap fun line => crlf ++ line).length := by
        simp only [List.flatMap_cons, List.length_append]
        omega
      rw [hsplit, hstart, hend, readHeaders_line hline _ _ (by rw [hnext]; omega), ← hnext, ← htail,
        ← List.append_assoc (front ++ crlf) line]
      exact ih hrest (front ++ crlf ++ line) (addHeader headers line)

/-- The headers are those of the lines, the last of a name counting. -/
theorem responseHeaders_lineBlock {first : Bytes} {lines : List Bytes} (hfirst : 13 ∉ first)
    (hlines : ∀ line ∈ lines, IsLine line) (hfits : first.length < npos) (rest : Bytes) :
    responseHeaders (lineBlock first lines ++ (crlf ++ crlf ++ rest))
        (lineBlock first lines).length =
      lines.foldl addHeader ∅ := by
  rw [responseHeaders, find_crlf_lineBlock hfirst lines rest]
  simp only [Option.getD_some, if_neg (Nat.ne_of_lt hfits)]
  rw [lineBlock, List.append_assoc, List.length_append]
  exact readHeaders_lines hlines first rest ∅

/-! ## The buffer and the stream -/

structure HeadRead (buffer stream : Bytes) (headerEnd : Nat) : Prop where
  isPrefix : buffer <+: stream
  found : find buffer (crlf ++ crlf) 0 = some headerEnd

namespace HeadRead

variable {buffer stream : Bytes} {headerEnd : Nat}

/-- The line end at the end of the header block is the last that matters. -/
theorem exists_find_crlf (h : HeadRead buffer stream headerEnd) {hpos : Nat}
    (hpos_le : hpos ≤ headerEnd) :
    ∃ hend, hend ≤ headerEnd ∧ find buffer crlf hpos = some hend ∧
      find stream crlf hpos = some hend := by
  obtain ⟨front, rest, hbuffer, rfl⟩ := exists_of_find h.found
  obtain ⟨hend, -, hle, hfind⟩ := exists_find_le crlf (crlf ++ rest) hpos_le
  rw [← List.append_assoc crlf, ← hbuffer] at hfind
  exact ⟨hend, hle, hfind, (persistent_find crlf hpos).of_isPrefix h.isPrefix hfind⟩

theorem headerEnd_le (h : HeadRead buffer stream headerEnd) : headerEnd + 4 ≤ buffer.length :=
  (find_bounds h.found).2

theorem substr_eq (h : HeadRead buffer stream headerEnd) {start stop : Nat} (hstart : start ≤ stop)
    (hstop : stop ≤ headerEnd) :
    substr buffer start (stop - start) = substr stream start (stop - start) := by
  have hle := h.headerEnd_le
  obtain ⟨more, rfl⟩ := h.isPrefix
  exact (substr_append_of_le more (by omega)).symm

theorem readHeaders_eq (h : HeadRead buffer stream headerEnd) (hpos : Nat) (headers : Headers) :
    readHeaders buffer headerEnd hpos headers = readHeaders stream headerEnd hpos headers := by
  fun_induction readHeaders stream headerEnd hpos headers with
  | case1 hpos headers hlt hend hle ih =>
      have hlineEnd : headerLineEnd buffer headerEnd hpos = hend ∧ hend ≤ headerEnd := by
        obtain ⟨found, hfound, hbuffer, hstream⟩ := h.exists_find_crlf (Nat.le_of_lt hlt)
        have hstop : ¬ headerEnd < found := Nat.not_lt.mpr hfound
        simp only [hend, headerLineEnd, hbuffer, hstream, if_neg hstop, true_and]
        exact hfound
      rw [readHeaders_of_lt hlt, hlineEnd.1, h.substr_eq hle hlineEnd.2, ih]
  | case2 hpos headers hge =>
      rw [readHeaders, dif_neg hge]

theorem responseHeaders_eq (h : HeadRead buffer stream headerEnd) :
    responseHeaders buffer headerEnd = responseHeaders stream headerEnd := by
  obtain ⟨lineEnd, -, hbuffer, hstream⟩ := h.exists_find_crlf (Nat.zero_le headerEnd)
  rw [responseHeaders, responseHeaders, hbuffer, hstream, h.readHeaders_eq]

theorem statusCode_eq (h : HeadRead buffer stream headerEnd) :
    statusCode buffer = statusCode stream := by
  obtain ⟨lineEnd, hle, hbuffer, hstream⟩ := h.exists_find_crlf (Nat.zero_le headerEnd)
  have hbound := h.headerEnd_le
  simp only [statusCode, hbuffer, hstream, Option.getD_some]
  cases hpos : find buffer (ascii " ") 0 with
  | some pos =>
      rw [(persistent_find (ascii " ") 0).of_isPrefix h.isPrefix hpos]
      dsimp only
      split
      · rename_i hlt
        rw [Nat.sub_sub, h.substr_eq (by omega) hle]
      · rfl
  | none =>
      -- A space that is only in the stream stands behind the status line.
      cases hspace : find stream (ascii " ") 0 with
      | none => rfl
      | some pos =>
          have hlate : ¬ pos < lineEnd := by
            intro hlt
            obtain ⟨more, rfl⟩ := h.isPrefix
            have hfound := find_of_append hspace (by
              have hone : (ascii " ").length = 1 := rfl
              omega)
            cases hpos.symm.trans hfound
          exact (if_neg hlate).symm

end HeadRead

theorem parseResponse_of_find_none {pieces : List (Piece recvLimit)}
    (h : find (pieces.flatMap Subtype.val) (crlf ++ crlf) 0 = none) (fuel : Nat) :
    parseResponse fuel pieces = some (.failed (ascii "Invalid response: incomplete headers")) := by
  obtain ⟨-, c, hawait⟩ | ⟨headerEnd, c, hfound, -⟩ :=
    (persistent_find (crlf ++ crlf) 0).await_cases (⟨[], pieces⟩ : Inflow recvLimit)
  · rw [parseResponse, hawait]
  · cases hfound.symm.trans h

theorem parseResponse_of_find {pieces : List (Piece recvLimit)} {headerEnd : Nat}
    (h : find (pieces.flatMap Subtype.val) (crlf ++ crlf) 0 = some headerEnd) :
    ∃ c : Inflow recvLimit, c.stream = pieces.flatMap Subtype.val ∧
      HeadRead c.buffer (pieces.flatMap Subtype.val) headerEnd ∧
      ∀ fuel, parseResponse fuel pieces =
        match statusCode (pieces.flatMap Subtype.val) with
        | none => some (.failed (ascii "Invalid response: malformed status line"))
        | some status => readBody fuel c status headerEnd := by
  obtain ⟨hnone, -⟩ | ⟨found, c, hfound, hawait, hstream, hbuffer⟩ :=
    (persistent_find (crlf ++ crlf) 0).await_cases (⟨[], pieces⟩ : Inflow recvLimit)
  · cases hnone.symm.trans h
  · cases hfound.symm.trans h
    have hwhole : c.stream = pieces.flatMap Subtype.val := hstream
    have hhead : HeadRead c.buffer (pieces.flatMap Subtype.val) headerEnd :=
      ⟨hwhole ▸ c.buffer_isPrefix, hbuffer⟩
    refine ⟨c, hwhole, hhead, fun fuel => ?_⟩
    rw [parseResponse, hawait]
    cases hstatus : statusCode (pieces.flatMap Subtype.val) with
    | none => simp only [hhead.statusCode_eq, hstatus]
    | some status => simp only [hhead.statusCode_eq, hstatus]

end ElioP2P.Control.SimpleHttpClient
