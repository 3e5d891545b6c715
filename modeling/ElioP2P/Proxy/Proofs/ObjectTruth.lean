import ElioP2P.Proxy.Proofs.HonestRequests
import ElioP2P.Proxy.Proofs.KeyIsolation
import ElioP2P.Proxy.Proofs.MetaLine

/-!
# One object of the origin

What is right for an object that never changes: each of its chunks is the slice
of its bytes, and every `#meta` line tells its size.
-/

namespace ElioP2P.Proxy

open ElioP2P.Library ElioP2P.Library.Coroutine ElioP2P.Cache ElioP2P.Cache.ChunkManager
open ElioP2P.P2P hiding Quiet

/-- An object and the chunk size it is cached with.  Its chunks can be counted in
the header of a message, and so can its `#meta` line. -/
structure StoredObject where
  key : Bytes
  content : Bytes
  chunkSize : Nat
  chunkSize_pos : 0 < chunkSize
  chunkSize_lt : chunkSize < 2 ^ 32
  length_le : content.length ≤ 2 ^ 24 * chunkSize
  key_lt : key.length < 2 ^ 31

namespace StoredObject

variable (O : StoredObject)

def chunkId (chunkIndex : Nat) : Bytes :=
  computeChunkId O.key (chunkIndex * O.chunkSize) O.chunkSize

def chunk (chunkIndex : Nat) : Bytes := chunkOf O.content O.chunkSize chunkIndex

structure Describes (obj : ObjectInfo) : Prop where
  size : obj.size = O.content.length
  etag : (∀ b ∈ obj.etag, isSpace b = false) ∧ obj.etag.length ≤ 1024
  hashes : ∀ hash ∈ obj.chunkHashes, (∀ b ∈ hash, isSpace b = false) ∧ hash.length ≤ 64
  count : obj.chunkHashes.length ≤ 2 ^ 24

def IsLine (line : Bytes) : Prop :=
  line.length < 2 ^ 32 ∧ ∀ obj, parseMeta line = some obj → O.Describes obj

/-- What may be kept under a chunk id. -/
def IsRight (id data : Bytes) : Prop :=
  (∀ i, i * O.chunkSize < O.content.length → SameFile id (O.chunkId i) → data = O.chunk i) ∧
    (SameFile id (metaKey O.key) → O.IsLine data)

def Truthful : (e : External) → e.Answer → Prop
  | .headObject bucket objectKey, answer => bucket ++ ascii "/" ++ objectKey = O.key →
      ∀ head, answer = some head → head.size = O.content.length ∧
        (∀ b ∈ head.etag, isSpace b = false) ∧ head.etag.length ≤ 1024
  | .getObject bucket objectKey offset length, answer =>
      bucket ++ ascii "/" ++ objectKey = O.key →
        ∀ data, answer = some data → data = segment O.content offset (offset + length)
  | _, _ => True

/-- A response with status 200 or 206 that tells of the object what is true. -/
structure Faithful (request : HttpRequest) (handled : Handled) : Prop where
  inBounds : handled.outOfBounds = false
  head : request.method = ascii "HEAD" →
    handled.response.getHeader (ascii "Content-Length") = decimal O.content.length
  whole : request.method = ascii "GET" → handled.response.statusCode = 200 →
    handled.response.body = O.content
  part : request.method = ascii "GET" → handled.response.statusCode = 206 →
    (requestedRange request O.content.length).valid = true ∧
      handled.response.getHeader (ascii "Content-Range") =
        ascii "bytes " ++ decimal (requestedRange request O.content.length).start ++ ascii "-" ++
          decimal (requestedRange request O.content.length).stop ++ ascii "/" ++
          decimal O.content.length ∧
      handled.response.body = segment O.content (requestedRange request O.content.length).start
        ((requestedRange request O.content.length).stop + 1)

variable {O}

/-! ## Lengths -/

theorem length_lt (O : StoredObject) : O.content.length < 2 ^ 56 := by
  have hle := O.length_le
  have hlt := O.chunkSize_lt
  omega

theorem index_lt {i : Nat} (hi : i * O.chunkSize < O.content.length) : i < 2 ^ 24 := by
  have hlt : i * O.chunkSize < 2 ^ 24 * O.chunkSize := Nat.lt_of_lt_of_le hi O.length_le
  exact Nat.lt_of_mul_lt_mul_right hlt

theorem length_decimal_le {n : Nat} (hn : n < 2 ^ 64) : (decimal n).length ≤ 20 := by
  rw [decimal, List.length_map, Nat.length_toDigits_le_iff (by decide) (by decide)]
  omega

theorem length_chunk_lt (i : Nat) : (O.chunk i).length < 2 ^ 32 := by
  have hlt := O.chunkSize_lt
  have hle : (O.chunk i).length ≤ O.chunkSize := by
    simp only [chunk, chunkOf, segment, List.length_drop, List.length_take, Nat.succ_mul]
    omega
  omega

theorem length_sanitize (id : Bytes) :
    id.length ≤ (sanitizeChunkFilename id).length + 1 ∧
      (sanitizeChunkFilename id).length ≤ id.length + 1 := by
  unfold sanitizeChunkFilename
  simp only
  split
  · rename_i hspecial
    have hlength : id.length ≤ 2 := by
      simp only [Bool.or_eq_true, List.isEmpty_iff, beq_iff_eq] at hspecial
      rcases hspecial with (hnil | hdot) | hdots
      · have := congrArg List.length hnil
        simp at this
        simp [this]
      · have := congrArg List.length hdot
        rw [List.length_map] at this
        rw [this]
        decide
      · have := congrArg List.length hdots
        rw [List.length_map] at this
        rw [this]
        decide
    have hone : (ascii "_").length = 1 := by decide
    rw [hone]
    omega
  · rw [List.length_map]
    omega

/-- Files of the object have names that a header can count. -/
theorem length_lt_of_sameFile {id : Bytes}
    (h : (∃ i, i * O.chunkSize < O.content.length ∧ SameFile id (O.chunkId i)) ∨
      SameFile id (metaKey O.key)) : id.length < 2 ^ 32 := by
  have hkey := O.key_lt
  have hsame : ∀ {name : Bytes}, SameFile id name → id.length ≤ name.length + 2 := by
    intro name hname
    have hid := (length_sanitize id).1
    have hother := (length_sanitize name).2
    rw [hname] at hid
    omega
  rcases h with ⟨i, hi, hfile⟩ | hfile
  · have hindex := index_lt hi
    have hdecimal := @length_decimal_le (i * O.chunkSize / O.chunkSize) (by
      rw [Nat.mul_div_cancel _ O.chunkSize_pos]
      omega)
    have hlength : (O.chunkId i).length =
        O.key.length + 1 + (decimal (i * O.chunkSize / O.chunkSize)).length := by
      rw [chunkId, computeChunkId, List.length_append, List.length_append]
      rfl
    have hle := hsame hfile
    omega
  · have hlength : (metaKey O.key).length = O.key.length + 5 := by
      rw [metaKey, List.length_append]
      rfl
    have hle := hsame hfile
    omega

theorem take_counted {bytes : Bytes} (h : bytes.length < 2 ^ 32) :
    bytes.take (UInt32.ofNat bytes.length).toNat = bytes := by
  rw [UInt32.toNat_ofNat', Nat.mod_eq_of_lt h, List.take_length]

def truth (O : StoredObject) : Truth where
  right := O.IsRight
  sameFile hfile hright :=
    ⟨fun i hi hsame => hright.1 i hi (hfile.symm.trans hsame),
      fun hsame => hright.2 (hfile.symm.trans hsame)⟩
  counted {id data} hright := by
    by_cases hlength : data.length < 2 ^ 32
    · rwa [take_counted hlength]
    · refine ⟨fun i hi hsame => ?_, fun hsame => ?_⟩
      · rw [hright.1 i hi hsame] at hlength
        exact absurd (length_chunk_lt i) hlength
      · exact absurd (hright.2 hsame).1 hlength
  named {id data} hright := by
    by_cases hlength : id.length < 2 ^ 32
    · rwa [take_counted hlength] at hright
    · refine ⟨fun i hi hsame => ?_, fun hsame => ?_⟩
      · exact absurd (length_lt_of_sameFile (Or.inl ⟨i, hi, hsame⟩)) hlength
      · exact absurd (length_lt_of_sameFile (Or.inr hsame)) hlength

/-! ## Lines -/

theorem length_fields {fields : List Bytes} (h : ∀ field ∈ fields, field.length ≤ 64) :
    (fields.flatMap (ascii " " ++ ·)).length ≤ 65 * fields.length := by
  induction fields with
  | nil => simp
  | cons field fields ih =>
      have hrest := ih fun f hf => h f (by simp [hf])
      have hfield := h field (by simp)
      have hblank : (ascii " ").length = 1 := by decide
      rw [List.flatMap_cons, List.length_append, List.length_append, hblank, List.length_cons]
      omega

theorem words_kept {etag word : Bytes} {hashes words : List Bytes}
    (hwords : (etag :: hashes).filter (fun w => !w.isEmpty) = word :: words) :
    word ∈ etag :: hashes ∧ (∀ w ∈ words, w ∈ hashes) ∧ words.length ≤ hashes.length := by
  have hall := List.length_filter_le (fun w : Bytes => !w.isEmpty) hashes
  have hsub : ∀ w ∈ hashes.filter (fun w => !w.isEmpty), w ∈ hashes :=
    fun w hw => (List.mem_filter.mp hw).1
  rw [List.filter_cons] at hwords
  split at hwords
  · obtain ⟨rfl, rfl⟩ := List.cons.inj hwords
    exact ⟨List.mem_cons_self, hsub, hall⟩
  · rw [hwords] at hall hsub
    rw [List.length_cons] at hall
    exact ⟨List.mem_cons_of_mem _ (hsub word (by simp)), fun w hw => hsub w (by simp [hw]),
      by omega⟩

theorem Describes.isLine {obj : ObjectInfo} (h : O.Describes obj) :
    O.IsLine (serializeMeta obj) := by
  have hsize : obj.size < 2 ^ 64 := by
    have hlt := O.length_lt
    rw [h.size]
    omega
  refine ⟨?_, fun obj' hparse => ?_⟩
  · have hdecimal := length_decimal_le hsize
    have hfields := length_fields fun hash hmem => (h.hashes hash hmem).2
    have hetag := h.etag.2
    have hcount := h.count
    have hblank : (ascii " ").length = 1 := by decide
    rw [serializeMeta, List.length_append, List.length_append, List.length_append, hblank]
    omega
  · rw [parseMeta_serializeMeta_eq hsize h.etag.1 fun hash hmem => (h.hashes hash hmem).1] at hparse
    cases hwords : (obj.etag :: obj.chunkHashes).filter fun w => !w.isEmpty with
    | nil =>
        rw [hwords] at hparse
        cases hparse
        exact ⟨h.size, by simp, by simp, by simp⟩
    | cons word words =>
        obtain ⟨hword, hmem, hle⟩ := words_kept hwords
        rw [hwords] at hparse
        cases hparse
        refine ⟨h.size, ?_, fun hash hhash => h.hashes hash (hmem hash hhash), hle.trans h.count⟩
        rcases List.mem_cons.mp hword with rfl | hhash
        · exact h.etag
        · have hshort := h.hashes word hhash
          exact ⟨hshort.1, hshort.2.trans (by decide)⟩

/-! ## Requests for the object and for others -/

section Subject

variable {handler : RequestHandler} {H : Sha256}

def terms (O : StoredObject) (H : Sha256) : Terms where
  truth := O.truth
  hash := H
  origin := O.Truthful
  requests request := OwnFile O.key (.request request)
  responses request handled := ∀ info, parseCacheKey request = some info →
    info.fullObjectKey = O.key → Successful handled → O.Faithful request handled

/-- Chunks of two objects share files only if their `#meta` chunks do. -/
theorem sameFile_metaKey {handler : RequestHandler} {info info' : CacheKeyInfo} {i j : Nat}
    (h : SameFile (chunkIdOf handler info i) (chunkIdOf handler info' j)) :
    SameFile (metaKey info.fullObjectKey) (metaKey info'.fullObjectKey) := by
  have hmeta : ∀ key, metaKey key = (key ++ ascii "#met") ++ [97] := by
    intro key
    rw [metaKey, List.append_assoc]
    rfl
  rw [SameFile, sanitize_chunkIdOf, sanitize_chunkIdOf] at h
  have hkeys := (@computeChunkId_inj _ _ (i * handler.chunkSize) (j * handler.chunkSize)
    handler.chunkSize h).1
  rw [SameFile, hmeta, hmeta, sanitizeChunkFilename_concat _ (by decide),
    sanitizeChunkFilename_concat _ (by decide), List.map_append, List.map_append, hkeys]

def info (O : StoredObject) : CacheKeyInfo :=
  { bucket := [], objectKey := [], fullObjectKey := O.key }

theorem chunkIdOf_info (hsize : handler.chunkSize = O.chunkSize) (i : Nat) :
    chunkIdOf handler O.info i = O.chunkId i := by
  rw [chunkIdOf, hsize]
  rfl

/-- Data for a chunk is right if it is the chunk whenever the object is this one. -/
theorem isRight_chunk (hsize : handler.chunkSize = O.chunkSize) {request : HttpRequest}
    {info : CacheKeyInfo} (hown : OwnFile O.key (.request request))
    (hinfo : parseCacheKey request = some info) {i : Nat} {data : Bytes}
    (hdata : info.fullObjectKey = O.key → data = O.chunk i) :
    O.IsRight (chunkIdOf handler info i) data := by
  refine ⟨fun j hj hfile => ?_, fun hfile => ?_⟩
  · rw [← chunkIdOf_info hsize] at hfile
    have hkey : info.fullObjectKey = O.key := hown.key_eq hinfo (sameFile_metaKey hfile).symm
    have hpos : 0 < handler.chunkSize := by
      rw [hsize]
      exact O.chunkSize_pos
    rw [hdata hkey, @sameFile_chunkIdOf handler hpos info O.info i j hkey hfile]
  · exact absurd hfile.symm (not_sameFile_meta_chunk handler info i O.key)

theorem isRight_line (hsize : handler.chunkSize = O.chunkSize) {request : HttpRequest}
    {info : CacheKeyInfo} (hown : OwnFile O.key (.request request))
    (hinfo : parseCacheKey request = some info) {line : Bytes}
    (hline : info.fullObjectKey = O.key → O.IsLine line) :
    O.IsRight (metaKey info.fullObjectKey) line := by
  refine ⟨fun j _ hfile => ?_, fun hfile => hline (hown.key_eq hinfo hfile.symm)⟩
  rw [← chunkIdOf_info hsize] at hfile
  exact absurd hfile (not_sameFile_meta_chunk handler O.info j info.fullObjectKey)

theorem length_hex (data : Bytes) : (H.hex data).length = 64 := by
  rw [Sha256.hex, Sha256.length_hexEncode, H.digest_length]

theorem Describes.entered {obj : ObjectInfo} (h : O.Describes obj) {i : Nat}
    (hi : i * O.chunkSize < O.content.length) (data : Bytes) :
    O.Describes { obj with
      chunkHashes := (resizeHashes obj.chunkHashes i).set i (H.hex data) } := by
  have hindex := index_lt hi
  have hcount := h.count
  refine ⟨h.size, h.etag, fun hash hmem => ?_, ?_⟩
  · rcases List.mem_or_eq_of_mem_set hmem with hold | rfl
    · rcases List.mem_append.mp hold with hword | hgap
      · exact h.hashes hash hword
      · rw [List.eq_of_mem_replicate hgap]
        exact ⟨by simp, by simp⟩
    · exact ⟨H.hex_no_space data, by rw [length_hex]⟩
  · simp only [resizeHashes, List.length_set, List.length_append, List.length_replicate]
    omega

theorem subject (hsize : handler.chunkSize = O.chunkSize) {request : HttpRequest}
    {info : CacheKeyInfo} (hown : OwnFile O.key (.request request))
    (hinfo : parseCacheKey request = some info) :
    Subject (O.terms H) handler info fun obj => info.fullObjectKey = O.key → O.Describes obj where
  parsed {line obj} hright hparse hkey := by
    have hline := hright.2
    rw [hkey] at hline
    exact (hline rfl).2 obj hparse
  line hgood := isRight_line hsize hown hinfo fun hkey => (hgood hkey).isLine
  head {head} hhead hkey := by
    have hname := (fullObjectKey_of_parseCacheKey hinfo).trans hkey
    obtain ⟨hlength, hword, hshort⟩ := hhead hname head rfl
    exact ⟨hlength, ⟨hword, hshort⟩, by simp, by simp⟩
  entered {obj base i data} hgood hi hbase hkey := by
    rw [hsize, (hgood hkey).size] at hi
    exact (hbase hkey).entered hi data
  chunk {obj i data} hgood hi hget := by
    refine isRight_chunk hsize hown hinfo fun hkey => ?_
    have hname := (fullObjectKey_of_parseCacheKey hinfo).trans hkey
    rw [hget hname data rfl, segment_wantedSize (hgood hkey).size, hsize]
    rfl

/-! ## Answers -/

theorem assembled_foldl {content : Bytes} {chunkSize : Nat} {range : ByteRange}
    {source : Nat → ChunkSource} (hpos : 0 < chunkSize) (hle : range.start ≤ range.stop)
    (hlt : range.stop < content.length) {chunks : List FetchedChunk}
    (hindices : chunks.map FetchedChunk.index =
      List.range' (range.start / chunkSize) chunks.length)
    (hdata : ∀ chunk ∈ chunks, chunk.data = chunkOf content chunkSize chunk.index ∧
      chunk.source = source chunk.index)
    (hlast : range.start / chunkSize + chunks.length ≤ range.stop / chunkSize + 1) :
    Assembled content chunkSize range source (range.start / chunkSize + chunks.length)
      (chunks.foldl (·.add chunkSize range) {}) := by
  induction chunks using List.reverseRecOn with
  | nil => exact assembled_start source
  | append_singleton chunks chunk ih =>
      rw [List.length_append, List.length_singleton] at hindices hlast
      rw [List.map_append, List.range'_concat, Nat.one_mul] at hindices
      obtain ⟨hfront, hindex⟩ := List.append_inj' hindices rfl
      have hchunk : chunk = ⟨range.start / chunkSize + chunks.length,
          chunkOf content chunkSize (range.start / chunkSize + chunks.length),
          source (range.start / chunkSize + chunks.length)⟩ := by
        have hplace : chunk.index = range.start / chunkSize + chunks.length := by
          simpa using hindex
        obtain ⟨hbytes, hsource⟩ := hdata chunk (by simp)
        rw [← hplace, ← hbytes, ← hsource]
      have hbuilt := ih hfront (fun c hc => hdata c (by simp [hc])) (by omega)
      rw [List.foldl_concat, List.length_append, List.length_singleton, hchunk, ← Nat.add_assoc]
      exact assembled_add hpos hle hlt (Nat.le_add_right _ _) (by omega) hbuilt

theorem exists_source {first : Nat} {chunks : List FetchedChunk}
    (hindices : chunks.map FetchedChunk.index = List.range' first chunks.length) :
    ∃ source : Nat → ChunkSource, ∀ chunk ∈ chunks, chunk.source = source chunk.index := by
  refine ⟨fun i => ((chunks[i - first]?).map FetchedChunk.source).getD .cache, fun chunk hmem => ?_⟩
  obtain ⟨k, hk, rfl⟩ := List.getElem_of_mem hmem
  have hindex : chunks[k].index = first + k := by
    have hplace := congrArg (·[k]?) hindices
    simpa [hk] using hplace
  simp only [hindex, Nat.add_sub_cancel_left, List.getElem?_eq_getElem hk, Option.map_some,
    Option.getD_some]

theorem get_ne_head : ascii "GET" ≠ ascii "HEAD" := by decide

theorem faithful_head {request : HttpRequest} (hmethod : request.method = ascii "HEAD")
    {obj : ObjectInfo} (hsize : obj.size = O.content.length) :
    O.Faithful request { response := headResponse obj } := by
  have hlength : (headResponse obj).getHeader (ascii "Content-Length") = decimal obj.size := by
    unfold headResponse
    rw [getHeader_setETag _ _ (by decide), getHeader_setHeader_other _ _ (by decide)]
    exact getHeader_setHeader_same _ _ _
  have hnot : request.method ≠ ascii "GET" := fun hget => get_ne_head (hget.symm.trans hmethod)
  refine ⟨rfl, fun _ => ?_, fun hget => absurd hget hnot, fun hget => absurd hget hnot⟩
  rw [hlength, hsize]

theorem faithful_empty {request : HttpRequest} (hmethod : request.method = ascii "GET")
    (hempty : O.content.length = 0) : O.Faithful request { response := emptyObject } := by
  refine ⟨rfl, fun hhead => absurd (hmethod.symm.trans hhead) get_ne_head, fun _ _ => ?_, ?_⟩
  · exact (List.eq_nil_of_length_eq_zero hempty).symm
  · intro _ hstatus
    cases hstatus

theorem data_of_rightChunks (hsize : handler.chunkSize = O.chunkSize) {info : CacheKeyInfo}
    (hkey : info.fullObjectKey = O.key) {range : ByteRange} {chunks : List FetchedChunk}
    (hinside : range.stop < O.content.length)
    (hright : RightChunks (O.terms H) handler info (range.start / handler.chunkSize) chunks)
    (hcount : range.start / handler.chunkSize + chunks.length =
      range.stop / handler.chunkSize + 1) :
    ∀ chunk ∈ chunks, chunk.data = chunkOf O.content handler.chunkSize chunk.index := by
  intro chunk hmem
  have hindex : chunk.index ≤ range.stop / handler.chunkSize := by
    have hplace := List.mem_map_of_mem (f := FetchedChunk.index) hmem
    rw [hright.1, List.mem_range'_1] at hplace
    omega
  have hstart : chunk.index * O.chunkSize < O.content.length := by
    have hmul := Nat.mul_le_mul_right handler.chunkSize hindex
    have hdiv := Nat.div_mul_le_self range.stop handler.chunkSize
    rw [← hsize]
    omega
  have hsame : SameFile (chunkIdOf handler info chunk.index) (O.chunkId chunk.index) := by
    rw [chunkIdOf, hkey, hsize]
    rfl
  rw [hsize]
  exact (hright.2 chunk hmem).1 chunk.index hstart hsame

theorem body_of_rightChunks (hsize : handler.chunkSize = O.chunkSize) {info : CacheKeyInfo}
    (hkey : info.fullObjectKey = O.key) {range : ByteRange} {chunks : List FetchedChunk}
    (horder : range.start ≤ range.stop) (hinside : range.stop < O.content.length)
    (hright : RightChunks (O.terms H) handler info (range.start / handler.chunkSize) chunks)
    (hcount : range.start / handler.chunkSize + chunks.length =
      range.stop / handler.chunkSize + 1)
    {a : Assembly} (ha : a = chunks.foldl (·.add handler.chunkSize range) {}) :
    a.outOfBounds = false ∧ a.body = segment O.content range.start (range.stop + 1) := by
  have hpos : 0 < handler.chunkSize := by
    rw [hsize]
    exact O.chunkSize_pos
  obtain ⟨source, hsource⟩ := exists_source hright.1
  have hdata := data_of_rightChunks hsize hkey hinside hright hcount
  have hbuilt := assembled_foldl hpos horder hinside hright.1
    (fun chunk hmem => ⟨hdata chunk hmem, hsource chunk hmem⟩) (by omega)
  rw [← ha, hcount] at hbuilt
  have hend : range.stop + 1 ≤ (range.stop / handler.chunkSize + 1) * handler.chunkSize := by
    have hmod := Nat.mod_lt range.stop hpos
    have hdiv := Nat.div_add_mod' range.stop handler.chunkSize
    rw [Nat.succ_mul]
    omega
  have hbody := hbuilt.body
  rw [Nat.min_eq_right hend] at hbody
  exact ⟨hbuilt.inBounds, hbody⟩

theorem faithful_chunkResponse {request : HttpRequest} (hmethod : request.method = ascii "GET")
    (hvalid : (requestedRange request O.content.length).valid = true) {obj : ObjectInfo}
    (hobj : obj.size = O.content.length) {a : Assembly} (hinBounds : a.outOfBounds = false)
    (hbody : a.body = segment O.content (requestedRange request O.content.length).start
      ((requestedRange request O.content.length).stop + 1)) :
    O.Faithful request
      { response := chunkResponse (request.hasHeader (ascii "Range"))
          (requestedRange request O.content.length) obj a
        fetched := a.fetched
        outOfBounds := a.outOfBounds } := by
  obtain ⟨hstatus, hcopied, hrange, -⟩ := chunkResponse_spec
    (request.hasHeader (ascii "Range")) (requestedRange request O.content.length) obj a
  refine ⟨hinBounds, fun hhead => absurd (hmethod.symm.trans hhead) get_ne_head,
    fun _ hwhole => ?_, fun _ hpart => ?_⟩
  · have hnone : request.hasHeader (ascii "Range") = false := by
      by_contra hheader
      rw [hstatus, if_pos (by simpa using hheader)] at hwhole
      cases hwhole
    rw [hcopied, hbody, requestedRange, hnone]
    simp only [Bool.false_eq_true, if_false, segment, List.drop_zero]
    exact List.take_of_length_le (by omega)
  · have hheader : request.hasHeader (ascii "Range") = true := by
      by_contra hnone
      rw [hstatus, if_neg hnone] at hpart
      cases hpart
    refine ⟨hvalid, ?_, ?_⟩
    · rw [hrange hheader, hobj]
    · rw [hcopied, hbody]

theorem faithful_of_answered (hsize : handler.chunkSize = O.chunkSize) {request : HttpRequest}
    {info : CacheKeyInfo} (hkey : info.fullObjectKey = O.key) {handled : Handled}
    (h : Answered (O.terms H) handler request info
      (fun obj => info.fullObjectKey = O.key → O.Describes obj) handled) :
    O.Faithful request handled := by
  cases h with
  | head hmethod hgood => exact faithful_head hmethod (hgood hkey).size
  | empty hmethod hgood hempty _ =>
      rw [(hgood hkey).size] at hempty
      exact faithful_empty hmethod hempty
  | @chunks obj chunks a hmethod hgood hpositive hvalid hright hcount ha =>
      have hobj := (hgood hkey).size
      rw [hobj] at hvalid hright hcount ha hpositive ⊢
      have hbounds := requestedRange_bounds hpositive hvalid
      obtain ⟨hinBounds, hbody⟩ :=
        body_of_rightChunks hsize hkey hbounds.1 hbounds.2 hright hcount ha
      exact faithful_chunkResponse hmethod hvalid hobj hinBounds hbody

theorem enters (O : StoredObject) (H : Sha256) {handler : RequestHandler}
    (hsize : handler.chunkSize = O.chunkSize) (fuel : Nat) :
    (nodeProgram H fuel handler).Enters (O.terms H).discipline (O.terms H).Startable := by
  apply enters_discipline (A := O.terms H)
  intro request s hown hs
  refine (Terms.follows_handleRequest (fun info hinfo => subject hsize hown hinfo) hs).mono ?_
  rintro h handled s' ⟨hs', hanswered⟩
  refine ⟨hs', fun info hinfo hkey hsuccess => ?_⟩
  obtain ⟨info', hinfo', hanswer⟩ := hanswered hsuccess
  cases Option.some.inj (hinfo'.symm.trans hinfo)
  exact faithful_of_answered hsize hkey hanswer

end Subject

end StoredObject

end ElioP2P.Proxy
