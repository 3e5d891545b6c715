import ElioP2P.Control.Proofs.ChunkRounds

/-!
# Responses as they are meant to be read

What a response is by the rules of HTTP: a status line, header lines in any
order and a body that is framed in one of three ways.  The client reads from its
text the status and the body, however the text is cut into pieces.
-/

namespace ElioP2P.Control.SimpleHttpClient

open ElioP2P.Library

/-! ## Responses -/

structure HeaderField where
  name : Bytes
  value : Bytes
  colon_notMem : 58 ∉ name
  cr_notMem : 13 ∉ name ++ value

def HeaderField.line (f : HeaderField) : Bytes := f.name ++ 58 :: f.value

def HeaderField.key (f : HeaderField) : Bytes := lower (trim f.name)

def HeaderField.NotFraming (f : HeaderField) : Prop :=
  f.key ≠ ascii "content-length" ∧ f.key ≠ ascii "transfer-encoding"

def Padded (core text : Bytes) : Prop :=
  ∃ front back, (∀ b ∈ front, isBlank b = true) ∧ (∀ b ∈ back, isBlank b = true) ∧
    text = front ++ (core ++ back)

/-- The line in front of a chunk of `n` bytes; its extensions start with a
semicolon. -/
structure ChunkLine (n : Nat) where
  digits : Bytes
  blanks : Bytes
  extensions : Bytes
  isHexadecimal : IsHexadecimal digits
  hexValue_eq : hexValue digits = n
  isBlank : ∀ b ∈ blanks, isBlank b = true
  semicolon : ∀ b ∈ extensions.head?, b = 59
  cr_notMem : 13 ∉ extensions

def ChunkLine.text {n : Nat} (l : ChunkLine n) : Bytes := l.digits ++ l.blanks ++ l.extensions

structure Chunk where
  data : Bytes
  nonempty : data ≠ []
  line : ChunkLine data.length

def Chunk.text (chunk : Chunk) : Bytes := chunk.line.text ++ (crlf ++ (chunk.data ++ crlf))

/-- How the end of the body is given, with the header that says so. -/
inductive Framing where
  | sized (field : HeaderField) (body digits : Bytes)
      (hname : lower field.name = ascii "content-length") (hvalue : Padded digits field.value)
      (hdigits : IsDecimal digits) (hlength : decimalValue digits = body.length)
  | chunked (field : HeaderField) (chunks : List Chunk) (last : ChunkLine 0)
      (trailer coding : Bytes) (hname : lower field.name = ascii "transfer-encoding")
      (hvalue : Padded coding field.value) (hcoding : lower coding = ascii "chunked")
  | toEnd (body : Bytes)

namespace Framing

def fields : Framing → List HeaderField
  | sized field .. | chunked field .. => [field]
  | toEnd _ => []

def body : Framing → Bytes
  | sized _ body .. | toEnd body => body
  | chunked _ chunks .. => chunks.flatMap Chunk.data

def text : Framing → Bytes
  | sized _ body .. | toEnd body => body
  | chunked _ chunks last trailer .. =>
      chunks.flatMap Chunk.text ++ (last.text ++ (crlf ++ trailer))

end Framing

/-- The reason comes with the space in front of it. -/
structure HttpResponse where
  version : Bytes
  status : Nat
  reason : Bytes
  before : List HeaderField
  framing : Framing
  after : List HeaderField
  space_notMem : 32 ∉ version
  version_cr_notMem : 13 ∉ version
  status_range : 100 ≤ status ∧ status ≤ 999
  reason_head : ∀ b ∈ reason.head?, isDigit b = false
  reason_cr_notMem : 13 ∉ reason
  notFraming : ∀ f ∈ before ++ after, f.NotFraming

namespace HttpResponse

variable (m : HttpResponse)

def fields : List HeaderField := m.before ++ (m.framing.fields ++ m.after)

def statusLine : Bytes := m.version ++ 32 :: (decimal m.status ++ m.reason)

def head : Bytes := lineBlock m.statusLine (m.fields.map HeaderField.line)

def text : Bytes := m.head ++ (crlf ++ crlf ++ m.framing.text)

end HttpResponse

/-! ## The headers -/

theorem isLine_line (f : HeaderField) : IsLine f.line := by
  refine ⟨by simp [HeaderField.line], ?_⟩
  have hcr := f.cr_notMem
  simp only [HeaderField.line, List.mem_append, List.mem_cons, not_or] at hcr ⊢
  exact ⟨hcr.1, by decide, hcr.2⟩

theorem addHeader_line (headers : Headers) (f : HeaderField) :
    addHeader headers f.line = headers.insert f.key (trim f.value) := by
  have hcolon : find f.line (ascii ":") 0 = some f.name.length :=
    find_first_of_notMem f.colon_notMem [] f.value
  have hname : substr f.line 0 f.name.length = f.name := by
    rw [substr, List.drop_zero, HeaderField.line, List.take_left]
  have hvalue : f.line.drop (f.name.length + 1) = f.value := by
    rw [HeaderField.line, ← List.singleton_append, ← List.append_assoc]
    exact List.drop_left' (List.length_append ..)
  simp only [addHeader, hcolon, hname, hvalue, HeaderField.key]

theorem lookup_foldl_addHeader {key : Bytes} {fields : List HeaderField}
    (hother : ∀ f ∈ fields, f.key ≠ key) (headers : Headers) :
    ((fields.map HeaderField.line).foldl addHeader headers).lookup key = headers.lookup key := by
  induction fields generalizing headers with
  | nil => rfl
  | cons f fields ih =>
      obtain ⟨hf, hfields⟩ := List.forall_mem_cons.mp hother
      rw [List.map_cons, List.foldl_cons, ih hfields, addHeader_line,
        AList.lookup_insert_ne (Ne.symm hf)]

theorem lookup_foldl_addHeader_of_mem {key : Bytes} {before after : List HeaderField}
    {f : HeaderField} (hf : f.key = key) (hafter : ∀ g ∈ after, g.key ≠ key) (headers : Headers) :
    (((before ++ ([f] ++ after)).map HeaderField.line).foldl addHeader headers).lookup key =
      some (trim f.value) := by
  rw [List.map_append, List.foldl_append, List.map_append, List.foldl_append,
    lookup_foldl_addHeader hafter]
  simp only [List.map_cons, List.map_nil, List.foldl_cons, List.foldl_nil, addHeader_line, hf]
  exact AList.lookup_insert _

/-! ## Blanks -/

theorem dropWhile_padded {front core : Bytes} (hfront : ∀ b ∈ front, isBlank b = true)
    (hne : core ≠ []) (hcore : ∀ b ∈ core, isBlank b = false) (back : Bytes) :
    (front ++ (core ++ back)).dropWhile isBlank = core ++ back := by
  obtain ⟨c, cs, rfl⟩ := List.exists_cons_of_ne_nil hne
  refine (takeWhile_append_stop hfront fun b hb => ?_).2
  rw [List.cons_append, List.head?_cons, Option.mem_some_iff] at hb
  rw [← hb]
  exact hcore c List.mem_cons_self

theorem trim_padded {core text : Bytes} (hne : core ≠ []) (hcore : ∀ b ∈ core, isBlank b = false)
    (htext : Padded core text) : trim text = core := by
  obtain ⟨front, back, hfront, hback, rfl⟩ := htext
  have hback' : ∀ b ∈ back.reverse, isBlank b = true :=
    fun b hb => hback b (List.mem_reverse.mp hb)
  have hcore' : ∀ b ∈ core.reverse, isBlank b = false :=
    fun b hb => hcore b (List.mem_reverse.mp hb)
  have hne' : core.reverse ≠ [] := by rwa [Ne, List.reverse_eq_nil_iff]
  have hlast := dropWhile_padded hback' hne' hcore' []
  rw [trim, dropWhile_padded hfront hne hcore, List.rdropWhile, List.reverse_append]
  rw [List.append_nil] at hlast
  rw [hlast, List.reverse_reverse]

theorem isBlank_of_isDigit {b : UInt8} (h : isDigit b = true) : isBlank b = false := by
  rw [isBlank, Bool.or_eq_false_iff, beq_eq_false_iff_ne, beq_eq_false_iff_ne]
  constructor <;> rintro rfl <;> cases h

theorem isBlank_of_isHexadecimalDigit {b : UInt8} (h : isHexadecimalDigit b = true) :
    isBlank b = false := by
  rw [isBlank, Bool.or_eq_false_iff, beq_eq_false_iff_ne, beq_eq_false_iff_ne]
  exact ⟨ne_of_isHexadecimalDigit h rfl, ne_of_isHexadecimalDigit h rfl⟩

theorem not_isBlank_of_lower {text word : Bytes} (h : lower text = word)
    (hword : word.any isBlank = false) : ∀ b ∈ text, isBlank b = false := by
  intro b hb
  have hlower : isBlank (toLower b) = false :=
    Bool.eq_false_iff.mpr (List.any_eq_false.mp hword (toLower b) (h ▸ List.mem_map_of_mem hb))
  rw [isBlank, Bool.or_eq_false_iff, beq_eq_false_iff_ne, beq_eq_false_iff_ne] at hlower ⊢
  constructor <;> rintro rfl
  · exact hlower.1 rfl
  · exact hlower.2 rfl

theorem padded_self (text : Bytes) : Padded text text := ⟨[], [], nofun, nofun, by simp⟩

theorem ne_nil_of_lower {text word : Bytes} (h : lower text = word) (hword : word ≠ []) :
    text ≠ [] := by
  rintro rfl
  exact hword h.symm

theorem key_of_lower {f : HeaderField} {word : Bytes} (h : lower f.name = word) (hne : word ≠ [])
    (hword : word.any isBlank = false) : f.key = word := by
  rw [HeaderField.key, trim_padded (ne_nil_of_lower h hne) (not_isBlank_of_lower h hword)
    (padded_self f.name), h]

/-! ## Chunks -/

theorem find_eq_none_of_notMem {b : UInt8} {text : Bytes} (h : b ∉ text) (pattern : Bytes) :
    find text (b :: pattern) 0 = none := by
  have hmatch := firstMatch_append_of_notMem h pattern []
  rw [List.append_nil] at hmatch
  rw [find, if_neg (Nat.not_lt_zero _), List.drop_zero, hmatch]
  rfl

theorem cr_notMem_text {n : Nat} (l : ChunkLine n) : 13 ∉ l.text := by
  simp only [ChunkLine.text, List.mem_append, not_or]
  refine ⟨⟨fun h => ?_, fun h => ?_⟩, l.cr_notMem⟩
  · exact absurd (l.isHexadecimal.2 13 h) (by decide)
  · exact absurd (l.isBlank 13 h) (by decide)

theorem chunkSize_of_find_none {text line : Bytes} {pos eol : Nat}
    (hline : substr text pos (eol - pos) = line) (h : find line (ascii ";") 0 = none) :
    chunkSize text pos eol = stoulHex (trim line) := by
  simp only [chunkSize, hline, h]

theorem chunkSize_of_find_some {text line : Bytes} {pos eol semi : Nat}
    (hline : substr text pos (eol - pos) = line) (h : find line (ascii ";") 0 = some semi) :
    chunkSize text pos eol = stoulHex (trim (substr line 0 semi)) := by
  simp only [chunkSize, hline, h]

theorem chunkSize_text {n : Nat} (hn : n < 2 ^ 64) (l : ChunkLine n) (front rest : Bytes) :
    chunkSize (front ++ (l.text ++ rest)) front.length (front.length + l.text.length) = some n := by
  have hsemicolon : 59 ∉ l.digits ++ l.blanks := by
    rw [List.mem_append, not_or]
    exact ⟨fun h => absurd (l.isHexadecimal.2 59 h) (by decide),
      fun h => absurd (l.isBlank 59 h) (by decide)⟩
  have htrim : trim (l.digits ++ l.blanks) = l.digits :=
    trim_padded l.isHexadecimal.1
      (fun b hb => isBlank_of_isHexadecimalDigit (l.isHexadecimal.2 b hb))
      ⟨[], l.blanks, nofun, l.isBlank, rfl⟩
  have hread : stoulHex (trim (l.digits ++ l.blanks)) = some n := by
    rw [htrim, stoulHex_hexadecimal l.isHexadecimal (by rwa [l.hexValue_eq]), l.hexValue_eq]
  have hline : substr (front ++ (l.text ++ rest)) front.length
      (front.length + l.text.length - front.length) = l.text := by
    rw [Nat.add_sub_cancel_left, substr_front]
  cases hext : l.extensions with
  | nil =>
      have htext : l.text = l.digits ++ l.blanks := by
        rw [ChunkLine.text, hext, List.append_nil]
      have hnone : find l.text (ascii ";") 0 = none :=
        find_eq_none_of_notMem (htext ▸ hsemicolon) []
      rw [chunkSize_of_find_none hline hnone, htext, hread]
  | cons b extensions =>
      have hb : b = 59 := l.semicolon b (by rw [hext]; rfl)
      have htext : l.text = (l.digits ++ l.blanks) ++ ([59] ++ extensions) := by
        rw [ChunkLine.text, hext, hb]
        rfl
      have hsome : find l.text (ascii ";") 0 = some (l.digits ++ l.blanks).length := by
        rw [htext]
        exact find_first_of_notMem hsemicolon [] extensions
      have hfield : substr l.text 0 (l.digits ++ l.blanks).length = l.digits ++ l.blanks := by
        rw [htext]
        exact substr_front [] (l.digits ++ l.blanks) ([59] ++ extensions)
      rw [chunkSize_of_find_some hline hsome, hfield, hread]

theorem chunkAt_text {stream : Bytes} {n : Nat} (hn : n < 2 ^ 64) (l : ChunkLine n)
    {front rest : Bytes} (hstream : stream = front ++ (l.text ++ (crlf ++ rest))) :
    ChunkAt stream front.length (front.length + l.text.length + 2) n := by
  rw [hstream]
  exact ⟨_, find_crlf (cr_notMem_text l) front rest, rfl, chunkSize_text hn l front (crlf ++ rest)⟩

theorem substr_buffer {c : Inflow recvLimit} {front part rest : Bytes}
    (hstream : c.stream = front ++ (part ++ rest))
    (hbuffered : front.length + part.length ≤ c.buffer.length) :
    substr c.buffer front.length part.length = part := by
  obtain ⟨more, hmore⟩ := c.buffer_isPrefix
  rw [← substr_append_of_le more hbuffered, hmore, hstream, substr_front]

theorem exists_decodeChunks_eq {chunk : Chunk} {front rest : Bytes} {c : Inflow recvLimit}
    (hstream : c.stream = front ++ (chunk.text ++ rest)) (hfits : c.stream.length < 2 ^ 64)
    (acc : Bytes) :
    ∃ c' : Inflow recvLimit, c'.stream = c.stream ∧ ∀ fuel,
      decodeChunks (fuel + 1) c front.length acc =
        decodeChunks fuel c' (front ++ chunk.text).length (acc ++ chunk.data) := by
  have hline : c.stream =
      front ++ (chunk.line.text ++ (crlf ++ (chunk.data ++ (crlf ++ rest)))) := by
    rw [hstream, Chunk.text]
    simp only [List.append_assoc]
  have hdata : c.stream =
      (front ++ chunk.line.text ++ crlf) ++ (chunk.data ++ (crlf ++ rest)) := by
    rw [hline]
    simp only [List.append_assoc]
  have hstart : (front ++ chunk.line.text ++ crlf).length =
      front.length + chunk.line.text.length + 2 := by
    rw [List.length_append, List.length_append]
    rfl
  have hnext : (front ++ chunk.line.text ++ crlf).length + chunk.data.length + 2 =
      (front ++ chunk.text).length := by
    rw [hstart]
    simp only [Chunk.text, crlf, List.length_append, List.length_cons, List.length_nil]
    omega
  have hlength : (front ++ chunk.text).length ≤ c.stream.length := by
    rw [hstream, ← List.append_assoc]
    exact (List.prefix_append _ rest).length_le
  have hwrap : wrap ((front ++ chunk.line.text ++ crlf).length + chunk.data.length + 2) =
      (front ++ chunk.text).length := by
    rw [hnext]
    exact Nat.mod_eq_of_lt (Nat.lt_of_le_of_lt hlength hfits)
  have hchunk : ChunkAt c.stream front.length (front ++ chunk.line.text ++ crlf).length
      chunk.data.length := by
    rw [hstart]
    exact chunkAt_text (by omega) chunk.line hline
  obtain ⟨run, hround, hrun⟩ := exists_round c front.length acc
  cases hround with
  | fails message hnone =>
      have hlate := (hnone _ _ hchunk).2
      rw [hwrap] at hlate
      exact absurd hlength (Nat.not_le.mpr hlate)
  | ends hlast =>
      exact absurd (List.length_eq_zero_iff.mp (hchunk.unique hlast).2) chunk.nonempty
  | @continues start size c' hchunk' _ hstream' hbuffered =>
      obtain ⟨rfl, rfl⟩ := hchunk.unique hchunk'
      refine ⟨c', hstream', fun fuel => ?_⟩
      rw [hwrap] at hbuffered
      rw [hrun, hwrap, substr_buffer (hstream'.trans hdata) (by omega)]

theorem length_le_flatMap_text (chunks : List Chunk) :
    chunks.length ≤ (chunks.flatMap Chunk.text).length := by
  induction chunks with
  | nil => exact Nat.le_refl 0
  | cons chunk chunks ih =>
      simp only [List.flatMap_cons, Chunk.text, crlf, List.length_append, List.length_cons,
        List.length_nil]
      omega

/-- The decoder copies the data of all chunks and stops at the last one. -/
theorem decodeChunks_chunks {chunks : List Chunk} {last : ChunkLine 0} {front trailer acc : Bytes}
    {c : Inflow recvLimit} {fuel : Nat}
    (hstream : c.stream =
      front ++ (chunks.flatMap Chunk.text ++ (last.text ++ (crlf ++ trailer))))
    (hfits : c.stream.length < 2 ^ 64) (hfuel : chunks.length < fuel) :
    decodeChunks fuel c front.length acc = some (.ok (acc ++ chunks.flatMap Chunk.data)) := by
  induction chunks generalizing front acc c fuel with
  | nil =>
      obtain ⟨fuel, rfl⟩ := Nat.exists_eq_add_one_of_ne_zero (Nat.ne_zero_of_lt hfuel)
      have hlast : ChunkAt c.stream front.length (front.length + last.text.length + 2) 0 :=
        chunkAt_text (by decide) last hstream
      obtain ⟨run, hround, hrun⟩ := exists_round c front.length acc
      rw [hrun]
      cases hround with
      | fails message hnone => exact absurd rfl (hnone _ _ hlast).1
      | ends hchunk => rw [List.flatMap_nil, List.append_nil]
      | continues hchunk hnext _ _ => exact absurd hnext (hlast.not_nextChunk _)
  | cons chunk chunks ih =>
      obtain ⟨fuel, rfl⟩ := Nat.exists_eq_add_one_of_ne_zero (Nat.ne_zero_of_lt hfuel)
      rw [List.flatMap_cons, List.append_assoc] at hstream
      obtain ⟨c', hstream', hround⟩ := exists_decodeChunks_eq hstream hfits acc
      rw [← List.append_assoc] at hstream
      rw [hround, ih (hstream'.trans hstream) (by rwa [hstream']) (Nat.lt_of_succ_lt_succ hfuel),
        List.flatMap_cons, List.append_assoc]

/-! ## The other framings -/

theorem readSized_eq {c : Inflow recvLimit} {front body digits : Bytes}
    (hstream : c.stream = front ++ body) (hfits : c.stream.length < 2 ^ 64)
    (hdigits : IsDecimal digits) (hlength : decimalValue digits = body.length) (status : Int) :
    readSized c status front.length digits = .received status body := by
  have htotal : front.length + body.length = c.stream.length := by
    rw [hstream, List.length_append]
  have hread : stoull digits = some body.length :=
    (stoull_digits hdigits.2).mpr ⟨hdigits.1, by omega, hlength.symm⟩
  have hwrap : wrap (front.length + body.length) = c.stream.length := by
    rw [htotal]
    exact Nat.mod_eq_of_lt hfits
  obtain ⟨hshort, -⟩ | ⟨_, c', -, hawait, hstream', hbuffer⟩ :=
    (persistent_atLeast c.stream.length).await_cases c
  · cases hshort.symm.trans (atLeast_eq_some_iff.mpr (Nat.le_refl _))
  · have hpart : c'.stream = front ++ (body ++ []) := by
      rw [List.append_nil, hstream', hstream]
    have hbuffered : front.length + body.length ≤ c'.buffer.length := by
      rw [htotal]
      exact atLeast_eq_some_iff.mp hbuffer
    simp only [readSized, hread, hwrap, hawait, substr_buffer hpart hbuffered]

theorem readToEnd_eq {c : Inflow recvLimit} {front body : Bytes}
    (hstream : c.stream = front ++ body) (status : Int) :
    readToEnd c status front.length = .received status body := by
  have hend := Inflow.buffer_await_of_none (c.seek_await fun _ => (none : Option Unit)).symm
  rw [readToEnd, hend, hstream, List.drop_left]

/-! ## Whole responses -/

namespace HttpResponse

variable (m : HttpResponse)

theorem cr_notMem_statusLine : 13 ∉ m.statusLine := by
  simp only [statusLine, List.mem_append, List.mem_cons, not_or]
  exact ⟨m.version_cr_notMem, by decide, notMem_decimal rfl _, m.reason_cr_notMem⟩

theorem isLine_of_mem_fields : ∀ line ∈ m.fields.map HeaderField.line, IsLine line := by
  intro line hline
  obtain ⟨f, -, rfl⟩ := List.mem_map.mp hline
  exact isLine_line f

theorem find_text : find m.text (crlf ++ crlf) 0 = some m.head.length :=
  find_lineBlock m.cr_notMem_statusLine m.isLine_of_mem_fields m.framing.text

theorem statusCode_text : statusCode m.text = some (m.status : Int) := by
  have hcode := statusCode_lineBlock m.space_notMem m.cr_notMem_statusLine
    (m.fields.map HeaderField.line) m.framing.text
  have hlt : m.status < 2 ^ 31 := Nat.lt_of_le_of_lt m.status_range.2 (by decide)
  exact hcode.trans (stoi_decimal hlt m.reason_head)

theorem statusLine_length_lt (hfits : m.text.length < 2 ^ 64) : m.statusLine.length < npos := by
  have hle : m.statusLine.length + 4 ≤ m.text.length := by
    simp only [text, head, lineBlock, crlf, List.length_append, List.length_cons, List.length_nil]
    omega
  rw [npos]
  omega

theorem responseHeaders_text (hfits : m.text.length < 2 ^ 64) :
    responseHeaders m.text m.head.length = (m.fields.map HeaderField.line).foldl addHeader ∅ :=
  responseHeaders_lineBlock m.cr_notMem_statusLine m.isLine_of_mem_fields
    (m.statusLine_length_lt hfits) m.framing.text

theorem lookup_eq_none {key : Bytes} (hfits : m.text.length < 2 ^ 64)
    (hkey : key = ascii "content-length" ∨ key = ascii "transfer-encoding")
    (hframing : ∀ f ∈ m.framing.fields, f.key ≠ key) :
    (responseHeaders m.text m.head.length).lookup key = none := by
  rw [m.responseHeaders_text hfits, lookup_foldl_addHeader]
  · rfl
  · intro f hf
    rcases List.mem_append.mp hf with hf | hf
    · have hnot := m.notFraming f (List.mem_append_left _ hf)
      rcases hkey with rfl | rfl
      · exact hnot.1
      · exact hnot.2
    · rcases List.mem_append.mp hf with hf | hf
      · exact hframing f hf
      · have hnot := m.notFraming f (List.mem_append_right _ hf)
        rcases hkey with rfl | rfl
        · exact hnot.1
        · exact hnot.2

theorem lookup_eq_some {key : Bytes} {f : HeaderField} (hfits : m.text.length < 2 ^ 64)
    (hkey : key = ascii "content-length" ∨ key = ascii "transfer-encoding")
    (hframing : m.framing.fields = [f]) (hf : f.key = key) :
    (responseHeaders m.text m.head.length).lookup key = some (trim f.value) := by
  rw [m.responseHeaders_text hfits, fields, hframing]
  refine lookup_foldl_addHeader_of_mem hf (fun g hg => ?_) ∅
  have hnot := m.notFraming g (List.mem_append_right _ hg)
  rcases hkey with rfl | rfl
  · exact hnot.1
  · exact hnot.2

theorem isChunked_eq_false (hfits : m.text.length < 2 ^ 64)
    (hframing : ∀ f ∈ m.framing.fields, f.key ≠ ascii "transfer-encoding") :
    isChunked (responseHeaders m.text m.head.length) = false := by
  rw [isChunked, m.lookup_eq_none hfits (.inr rfl) hframing]

theorem headers_of_sized (hfits : m.text.length < 2 ^ 64) {f : HeaderField} {digits : Bytes}
    (hframing : m.framing.fields = [f]) (hname : lower f.name = ascii "content-length")
    (hvalue : Padded digits f.value) (hdigits : IsDecimal digits) :
    isChunked (responseHeaders m.text m.head.length) = false ∧
      (responseHeaders m.text m.head.length).lookup (ascii "content-length") = some digits := by
  have hkey : f.key = ascii "content-length" := key_of_lower hname (by decide) (by decide)
  have hother : ∀ g ∈ m.framing.fields, g.key ≠ ascii "transfer-encoding" := by
    rw [hframing]
    intro g hg
    obtain rfl := List.mem_singleton.mp hg
    rw [hkey]
    decide
  have htrim : trim f.value = digits :=
    trim_padded hdigits.1 (fun b hb => isBlank_of_isDigit (hdigits.2 b hb)) hvalue
  refine ⟨m.isChunked_eq_false hfits hother, ?_⟩
  rw [m.lookup_eq_some hfits (.inl rfl) hframing hkey, htrim]

theorem isChunked_of_chunked (hfits : m.text.length < 2 ^ 64) {f : HeaderField} {coding : Bytes}
    (hframing : m.framing.fields = [f]) (hname : lower f.name = ascii "transfer-encoding")
    (hvalue : Padded coding f.value) (hcoding : lower coding = ascii "chunked") :
    isChunked (responseHeaders m.text m.head.length) = true := by
  have hkey : f.key = ascii "transfer-encoding" := key_of_lower hname (by decide) (by decide)
  have htrim : trim f.value = coding :=
    trim_padded (ne_nil_of_lower hcoding (by decide)) (not_isBlank_of_lower hcoding (by decide))
      hvalue
  rw [isChunked, m.lookup_eq_some hfits (.inr rfl) hframing hkey, htrim]
  simp only [hcoding]
  decide

theorem readBody_text {c : Inflow recvLimit} (hstream : c.stream = m.text)
    (hhead : HeadRead c.buffer m.text m.head.length) (hfits : m.text.length < 2 ^ 64) {fuel : Nat}
    (hfuel : m.text.length < fuel) :
    readBody fuel c m.status m.head.length = some (.received m.status m.framing.body) := by
  have hfront : c.stream = (m.head ++ (crlf ++ crlf)) ++ m.framing.text := by
    rw [hstream, text, List.append_assoc m.head]
  have hstart : m.head.length + 4 = (m.head ++ (crlf ++ crlf)).length := by
    rw [List.length_append]
    rfl
  have hfits' : c.stream.length < 2 ^ 64 := by rwa [hstream]
  simp only [readBody, hhead.responseHeaders_eq, hstart]
  cases hframing : m.framing with
  | sized f body digits hname hvalue hdigits hlength =>
      obtain ⟨hchunked, hlookup⟩ :=
        m.headers_of_sized hfits (by rw [hframing]; rfl) hname hvalue hdigits
      rw [hframing] at hfront
      rw [hchunked, hlookup, if_neg Bool.false_ne_true]
      exact congrArg some (readSized_eq hfront hfits' hdigits hlength m.status)
  | chunked f chunks last trailer coding hname hvalue hcoding =>
      have hchunked := m.isChunked_of_chunked hfits (by rw [hframing]; rfl) hname hvalue hcoding
      rw [hframing] at hfront
      have hcount : chunks.length < fuel := by
        have hchunks := length_le_flatMap_text chunks
        have hlength := congrArg List.length hfront
        rw [hstream] at hlength
        simp only [Framing.text, List.length_append] at hlength
        omega
      rw [if_pos hchunked, decodeChunks_chunks hfront hfits' hcount]
      rfl
  | toEnd body =>
      have hother : ∀ key, ∀ g ∈ m.framing.fields, g.key ≠ key := by
        rw [hframing]
        exact fun _ _ hg => nomatch hg
      rw [hframing] at hfront
      rw [m.isChunked_eq_false hfits (hother _), m.lookup_eq_none hfits (.inl rfl) (hother _),
        if_neg Bool.false_ne_true]
      exact congrArg some (readToEnd_eq hfront m.status)

end HttpResponse

/-- The client returns the status and the body of the response, for every way in
which `recv` cuts its text. -/
theorem httpRequest_response (m : HttpResponse) (pieces : List (Piece recvLimit))
    (hpieces : pieces.flatMap Subtype.val = m.text) (hfits : m.text.length < 2 ^ 64) (fuel : Nat)
    (hfuel : m.text.length < fuel) :
    httpRequest fuel pieces = some ((m.status : Int), m.framing.body) := by
  have hfind := m.find_text
  rw [← hpieces] at hfind
  obtain ⟨c, hstream, hhead, hparse⟩ := parseResponse_of_find hfind
  rw [hpieces] at hstream hhead hparse
  rw [httpRequest, hparse, m.statusCode_text]
  dsimp only
  rw [m.readBody_text hstream hhead hfits hfuel]
  rfl

def sampleField (name value : String) (hcolon : 58 ∉ ascii name)
    (hcr : 13 ∉ ascii name ++ ascii value) : HeaderField :=
  ⟨ascii name, ascii value, hcolon, hcr⟩

def sampleResponse : HttpResponse where
  version := ascii "HTTP/1.1"
  status := 201
  reason := ascii " Created"
  before := [sampleField "Server" " p2p" (by decide) (by decide)]
  framing := .chunked (sampleField "transfer-ENCODING" " Chunked " (by decide) (by decide))
    [⟨ascii "hi\r\n\r\n", by decide,
      ⟨ascii "06", ascii " ", ascii ";a=b", ⟨by decide, List.all_eq_true.mp (by decide)⟩, by decide,
        List.all_eq_true.mp (by decide), by rintro b ⟨⟩; rfl, by decide⟩⟩]
    ⟨ascii "0", [], [], ⟨by decide, List.all_eq_true.mp (by decide)⟩, by decide, nofun,
      nofun, nofun⟩
    crlf (ascii "Chunked") (by decide)
    ⟨[32], [32], List.all_eq_true.mp (by decide), List.all_eq_true.mp (by decide), rfl⟩ (by decide)
  after := [sampleField "X" "" (by decide) (by decide)]
  space_notMem := by decide
  version_cr_notMem := by decide
  status_range := by decide
  reason_head := by rintro b ⟨⟩; rfl
  reason_cr_notMem := by decide
  notFraming := by
    intro f hf
    rcases List.mem_append.mp hf with hf | hf <;> obtain rfl := List.mem_singleton.mp hf <;>
      exact ⟨by decide, by decide⟩

theorem httpRequest_response_sample :
    httpRequest 200 [⟨sampleResponse.text.take 60, by decide⟩,
      ⟨sampleResponse.text.drop 60, by decide⟩] = some (201, ascii "hi\r\n\r\n") := by
  refine httpRequest_response sampleResponse [_, _] ?_ (by decide) 200 (by decide)
  exact (congrArg _ (List.append_nil _)).trans (List.take_append_drop 60 sampleResponse.text)

end ElioP2P.Control.SimpleHttpClient
