import ElioP2P.Proxy.RequestHandler
import Mathlib.Data.List.Basic
import Mathlib.Tactic.Common

/-!
# The assembled body is the requested slice

`handle_request` cuts the first and the last chunk of a range at `start % cs`
and `end % cs + 1`.  The loop invariant is that after the chunks before `idx`
the body is the object between `start` and the beginning of chunk `idx`, or the
end of the range if that comes first.
-/

namespace ElioP2P.Proxy

open ElioP2P.Library

def segment (object : Bytes) (a b : Nat) : Bytes := (object.take b).drop a

/-- The bytes `[i * chunkSize, min ((i + 1) * chunkSize) size)`. -/
def chunkOf (object : Bytes) (chunkSize i : Nat) : Bytes :=
  segment object (i * chunkSize) ((i + 1) * chunkSize)

/-! ## Segments -/

theorem segment_append (object : Bytes) {a b c : Nat} (hab : a ≤ b) (hbc : b ≤ c) :
    segment object a b ++ segment object b c = segment object a c := by
  have hsplit := List.take_append_drop b (object.take c)
  rw [List.take_take, Nat.min_eq_left hbc] at hsplit
  unfold segment
  conv_rhs => rw [← hsplit]
  rw [List.drop_append]
  congr 1
  rcases Nat.lt_or_ge object.length b with hshort | hlong
  · -- The object ends before `b`, so nothing is left behind it.
    rw [List.drop_eq_nil_of_le (by simp; omega), List.drop_nil]
  · rw [List.length_take, Nat.min_eq_left hlong, Nat.sub_eq_zero_of_le hab, List.drop_zero]

theorem segment_segment (object : Bytes) {a b lo hi : Nat} (hhi : a + hi ≤ b) :
    ((segment object a b).take hi).drop lo = segment object (a + lo) (a + hi) := by
  unfold segment
  rw [List.take_drop, List.take_take, Nat.min_eq_left hhi, List.drop_drop]

theorem segment_eq_nil (object : Bytes) {a b : Nat} (h : b ≤ a) : segment object a b = [] := by
  apply List.drop_eq_nil_of_le
  simp
  omega

/-! ## Ranges -/

theorem parseRangeSpec_bounds {startStr endStr : Bytes} {objectSize : Nat}
    (hpos : 0 < objectSize) (hvalid : (parseRangeSpec startStr endStr objectSize).valid = true) :
    (parseRangeSpec startStr endStr objectSize).start ≤
        (parseRangeSpec startStr endStr objectSize).stop ∧
      (parseRangeSpec startStr endStr objectSize).stop < objectSize := by
  unfold parseRangeSpec at hvalid ⊢
  by_cases hempty : startStr.isEmpty = true
  · simp only [hempty, if_true] at hvalid ⊢
    cases hsuffix : stoull endStr with
    | none => simp [hsuffix] at hvalid
    | some suffix =>
        simp only [hsuffix] at hvalid ⊢
        by_cases hzero : suffix = 0
        · simp [hzero] at hvalid
        · simp only [hzero, if_false]
          omega
  · simp only [hempty, Bool.false_eq_true, if_false] at hvalid ⊢
    cases hstart : stoull startStr with
    | none => simp [hstart] at hvalid
    | some start =>
        simp only [hstart] at hvalid ⊢
        split at hvalid
        · simp at hvalid
        · rename_i stop hstop
          simp only [Bool.not_eq_true', Bool.or_eq_false_iff, decide_eq_false_iff_not] at hvalid
          have hle : stop ≤ objectSize - 1 := by
            by_cases hend : endStr.isEmpty = true
            · simp only [hend, if_true, Option.some.injEq] at hstop
              omega
            · simp only [hend, Bool.false_eq_true, if_false, Option.map_eq_some_iff] at hstop
              obtain ⟨n, -, rfl⟩ := hstop
              exact Nat.min_le_right _ _
          simp only
          omega

theorem requestedRange_bounds {request : HttpRequest} {objectSize : Nat} (hpos : 0 < objectSize)
    (hvalid : (requestedRange request objectSize).valid = true) :
    (requestedRange request objectSize).start ≤ (requestedRange request objectSize).stop ∧
      (requestedRange request objectSize).stop < objectSize := by
  unfold requestedRange at hvalid ⊢
  split at hvalid
  · rename_i hheader
    rw [if_pos hheader]
    unfold parseRangeHeader at hvalid ⊢
    split at hvalid
    · cases hvalid
    · rename_i hform
      rw [if_neg hform]
      simp only at hvalid ⊢
      split at hvalid
      · cases hvalid
      · rename_i hdash
        rw [if_neg hdash]
        exact parseRangeSpec_bounds hpos hvalid
  · rename_i hheader
    rw [if_neg hheader]
    simp only
    omega

/-! ## The loop -/

section Loop

variable {object : Bytes} {chunkSize : Nat} {range : ByteRange}

/-- One entry of the X-Chunk-Sources header. -/
def sourceEntry (idx : Nat) (source : ChunkSource) : Bytes :=
  decimal idx ++ ascii ":" ++ source.label

def sourcesHeader (source : Nat → ChunkSource) (first count : Nat) : Bytes :=
  (ascii ",").intercalate ((List.range' first count).map fun idx => sourceEntry idx (source idx))

theorem intercalate_concat (sep x : Bytes) (xs : List Bytes) :
    sep.intercalate (xs ++ [x]) = if xs.isEmpty then x else sep.intercalate xs ++ sep ++ x := by
  induction xs with
  | nil => simp
  | cons y ys ih =>
      cases ys with
      | nil => simp
      | cons z zs =>
          simp only [List.cons_append, List.intercalate_cons_cons, List.isEmpty_cons,
            Bool.false_eq_true, if_false] at ih ⊢
          rw [ih]
          simp

theorem sourcesHeader_succ (source : Nat → ChunkSource) (first count : Nat) :
    sourcesHeader source first (count + 1) =
      sourcesHeader source first count ++ (if first < first + count then ascii "," else []) ++
        sourceEntry (first + count) (source (first + count)) := by
  unfold sourcesHeader
  rw [List.range'_concat, List.map_append, List.map_singleton, intercalate_concat, Nat.one_mul]
  cases count with
  | zero => simp
  | succ count => simp

structure Assembled (object : Bytes) (chunkSize : Nat) (range : ByteRange)
    (source : Nat → ChunkSource) (idx : Nat) (a : Assembly) : Prop where
  body : a.body = segment object range.start (min (idx * chunkSize) (range.stop + 1))
  sources : a.chunkSources = sourcesHeader source (range.start / chunkSize)
    (idx - range.start / chunkSize)
  inBounds : a.outOfBounds = false

theorem assembled_start (source : Nat → ChunkSource) :
    Assembled object chunkSize range source (range.start / chunkSize) {} where
  body := by
    rw [segment_eq_nil]
    exact Nat.le_trans (Nat.min_le_left _ _) (Nat.div_mul_le_self _ _)
  sources := by simp [sourcesHeader]
  inBounds := rfl

theorem slice_positions {idx : Nat} (hcs : 0 < chunkSize) (hle : range.start ≤ range.stop)
    (hlt : range.stop < object.length) (hfirst : range.start / chunkSize ≤ idx)
    (hlast : idx ≤ range.stop / chunkSize) {lo hi : Nat}
    (hlo : lo = if idx = range.start / chunkSize then range.start % chunkSize else 0)
    (hhi : hi = if idx = range.stop / chunkSize then range.stop % chunkSize + 1
      else (chunkOf object chunkSize idx).length) :
    idx * chunkSize + lo = max range.start (idx * chunkSize) ∧
      idx * chunkSize + hi = min ((idx + 1) * chunkSize) (range.stop + 1) ∧ lo < hi ∧
        hi ≤ (chunkOf object chunkSize idx).length := by
  have hsucc : (idx + 1) * chunkSize = idx * chunkSize + chunkSize := Nat.succ_mul _ _
  have hstart := Nat.div_add_mod' range.start chunkSize
  have hstop := Nat.div_add_mod' range.stop chunkSize
  have hstartMod := Nat.mod_lt range.start hcs
  have hstopMod := Nat.mod_lt range.stop hcs
  have hbelow : idx * chunkSize ≤ range.stop / chunkSize * chunkSize :=
    Nat.mul_le_mul_right _ hlast
  have hlength : (chunkOf object chunkSize idx).length =
      min (idx * chunkSize + chunkSize) object.length - idx * chunkSize := by
    simp [chunkOf, segment, hsucc]
  have hafter : idx ≠ range.start / chunkSize → range.start ≤ idx * chunkSize := by
    intro hne
    have := Nat.mul_le_mul_right chunkSize (show range.start / chunkSize + 1 ≤ idx by omega)
    rw [Nat.succ_mul] at this
    omega
  have hbefore : idx ≠ range.stop / chunkSize → idx * chunkSize + chunkSize ≤ range.stop := by
    intro hne
    have := Nat.mul_le_mul_right chunkSize (show idx + 1 ≤ range.stop / chunkSize by omega)
    rw [Nat.succ_mul] at this
    omega
  rw [hsucc, hlength]
  rw [hlength] at hhi
  by_cases hisFirst : idx = range.start / chunkSize
  · rw [if_pos hisFirst] at hlo
    rw [← hisFirst] at hstart
    by_cases hisLast : idx = range.stop / chunkSize
    · rw [if_pos hisLast] at hhi
      rw [← hisLast] at hstop
      omega
    · rw [if_neg hisLast] at hhi
      have := hbefore hisLast
      omega
  · rw [if_neg hisFirst] at hlo
    have := hafter hisFirst
    by_cases hisLast : idx = range.stop / chunkSize
    · rw [if_pos hisLast] at hhi
      rw [← hisLast] at hstop
      omega
    · rw [if_neg hisLast] at hhi
      have := hbefore hisLast
      omega

/-- One more chunk of the object extends the body up to its end, or to the end
of the range. -/
theorem assembled_add {source : Nat → ChunkSource} {idx : Nat} {a : Assembly}
    (hcs : 0 < chunkSize) (hle : range.start ≤ range.stop) (hlt : range.stop < object.length)
    (hfirst : range.start / chunkSize ≤ idx) (hlast : idx ≤ range.stop / chunkSize)
    (ha : Assembled object chunkSize range source idx a) :
    Assembled object chunkSize range source (idx + 1)
      (a.add chunkSize range ⟨idx, chunkOf object chunkSize idx, source idx⟩) := by
  obtain ⟨hlo, hhi, hlohi, hin⟩ := slice_positions hcs hle hlt hfirst hlast rfl rfl
  have hbegin : idx * chunkSize ≤ range.stop + 1 := by
    have hmul := Nat.mul_le_mul_right chunkSize hlast
    have hdiv := Nat.div_mul_le_self range.stop chunkSize
    omega
  refine ⟨?_, ?_, ?_⟩
  · -- What is there ends where the slice begins, or is empty.
    have hpiece : ∀ lo hi, idx * chunkSize + hi ≤ (idx + 1) * chunkSize →
        ((chunkOf object chunkSize idx).take hi).drop lo =
          segment object (idx * chunkSize + lo) (idx * chunkSize + hi) :=
      fun lo hi h => segment_segment object h
    simp only [Assembly.add, decide_eq_true_eq, if_neg (Nat.not_le_of_lt hlohi), ha.body]
    rw [hpiece _ _ (by rw [hhi]; exact Nat.min_le_left _ _), hlo, hhi, Nat.min_eq_left hbegin]
    rcases Nat.le_total range.start (idx * chunkSize) with hafter | hbefore
    · rw [Nat.max_eq_right hafter]
      exact segment_append object hafter (by rw [← hhi]; omega)
    · rw [Nat.max_eq_left hbefore, segment_eq_nil object hbefore, List.nil_append]
  · have hcount : idx + 1 - range.start / chunkSize = idx - range.start / chunkSize + 1 := by
      omega
    have hidx : range.start / chunkSize + (idx - range.start / chunkSize) = idx := by omega
    rw [hcount, sourcesHeader_succ, hidx, ← ha.sources]
    simp [Assembly.add, sourceEntry]
  · simp only [Assembly.add, ha.inBounds, Bool.false_or, Bool.and_eq_false_iff]
    right
    exact decide_eq_false (Nat.not_lt_of_le hin)

/-- One round of the loop: a failed lookup ends it. -/
theorem assembleChunks_succ (fetch : Nat → Id (Option Bytes × ChunkSource)) (rounds idx : Nat)
    (a : Assembly) :
    assembleChunks (m := Id) chunkSize range (fun _ _ => pure ()) fetch (rounds + 1) idx a =
      (fetch idx).1.bind fun data => assembleChunks (m := Id) chunkSize range
        (fun _ _ => pure ()) fetch rounds (idx + 1)
        (a.add chunkSize range ⟨idx, data, (fetch idx).2⟩) := by
  rw [assembleChunks]
  rcases fetch idx with ⟨_ | data, source⟩
  · rfl
  · rfl

theorem assembleChunks_failed {fetch : Nat → Id (Option Bytes × ChunkSource)} {rounds idx i : Nat}
    {a : Assembly} (hi : idx ≤ i) (hi' : i < idx + rounds) (hfail : (fetch i).1 = none) :
    assembleChunks (m := Id) chunkSize range (fun _ _ => pure ()) fetch rounds idx a = none := by
  induction rounds generalizing idx a with
  | zero => omega
  | succ rounds ih =>
      rw [assembleChunks_succ]
      cases hdata : (fetch idx).1 with
      | none => rfl
      | some data =>
          refine ih ?_ (by omega)
          rcases Nat.eq_or_lt_of_le hi with rfl | hlt
          · rw [hfail] at hdata
            cases hdata
          · exact hlt

end Loop

/-! ## Responses -/

theorem getHeader_setHeader_same (response : HttpResponse) (name value : Bytes) :
    (response.setHeader name value).getHeader name = value := by
  simp [HttpResponse.setHeader, HttpResponse.getHeader]

theorem getHeader_setHeader_other (response : HttpResponse) {name other : Bytes} (value : Bytes)
    (hne : other ≠ name) : (response.setHeader name value).getHeader other
      = response.getHeader other := by
  simp [HttpResponse.setHeader, HttpResponse.getHeader, AList.lookup_insert_ne hne]

theorem getHeader_setETag (response : HttpResponse) (obj : ObjectInfo) {other : Bytes}
    (hne : other ≠ ascii "ETag") : (response.setETag obj).getHeader other
      = response.getHeader other := by
  unfold HttpResponse.setETag
  split
  · rfl
  · exact getHeader_setHeader_other response _ hne

theorem setETag_fields (response : HttpResponse) (obj : ObjectInfo) :
    (response.setETag obj).statusCode = response.statusCode ∧
      (response.setETag obj).body = response.body := by
  unfold HttpResponse.setETag
  split <;> exact ⟨rfl, rfl⟩

theorem chunkResponse_spec (isRange : Bool) (range : ByteRange) (obj : ObjectInfo) (a : Assembly) :
    (chunkResponse isRange range obj a).statusCode = (if isRange then 206 else 200) ∧
      (chunkResponse isRange range obj a).body = a.body ∧
      (isRange = true → (chunkResponse isRange range obj a).getHeader (ascii "Content-Range") =
        ascii "bytes " ++ decimal range.start ++ ascii "-" ++ decimal range.stop ++ ascii "/" ++
          decimal obj.size) ∧
      (chunkResponse isRange range obj a).getHeader (ascii "X-Chunk-Sources")
        = a.chunkSources := by
  unfold chunkResponse
  simp only
  refine ⟨?_, ?_, ?_, ?_⟩
  · rw [(setETag_fields _ _).1]
    cases isRange <;> rfl
  · rw [(setETag_fields _ _).2]
    cases isRange <;> rfl
  · rintro rfl
    rw [getHeader_setETag _ _ (by decide), getHeader_setHeader_other _ _ (by decide),
      getHeader_setHeader_other _ _ (by decide), getHeader_setHeader_other _ _ (by decide),
      getHeader_setHeader_other _ _ (by decide), getHeader_setHeader_other _ _ (by decide)]
    exact getHeader_setHeader_same _ _ _
  · rw [getHeader_setETag _ _ (by decide)]
    exact getHeader_setHeader_same _ _ _

/-- `handle_request` with all its lookups answered: `obj` for the object and
`fetch` for its chunks. -/
def handleRequestFrom (allowedBucket : Bytes) (chunkSize : Nat) (obj : ObjectInfo)
    (fetch : Nat → Option Bytes × ChunkSource) (request : HttpRequest) : Handled :=
  handleRequestWith (m := Id) allowedBucket chunkSize (fun _ => pure ()) (fun _ => pure (some obj))
    (fun _ _ idx => pure (fetch idx)) request

theorem handleRequestFrom_found {allowedBucket : Bytes} {chunkSize : Nat} {obj : ObjectInfo}
    {fetch : Nat → Option Bytes × ChunkSource} {request : HttpRequest} {info : CacheKeyInfo}
    (hmethod : request.method = ascii "GET") (hinfo : parseCacheKey request = some info)
    (hbucket : allowedBucket = [] ∨ info.bucket = allowedBucket) :
    handleRequestFrom allowedBucket chunkSize obj fetch request =
      serveObject (m := Id) chunkSize (fun _ => pure ()) (fun _ _ idx => pure (fetch idx)) request
        info obj := by
  have hget : (request.method != ascii "GET" && !request.method == ascii "HEAD") = false := by
    rw [hmethod]
    rfl
  have hhead : (request.method == ascii "HEAD") = false := by
    rw [hmethod]
    decide
  have hallowed : (!allowedBucket.isEmpty && info.bucket != allowedBucket) = false := by
    rcases hbucket with rfl | rfl
    · rfl
    · simp
  unfold handleRequestFrom handleRequestWith
  simp only [hget, Bool.false_eq_true, if_false, hinfo, hallowed]
  change (if (request.method == ascii "HEAD") = true then _ else _) = _
  rw [if_neg (by simp [hhead])]

theorem handleRequestFrom_eq (allowedBucket : Bytes) (chunkSize : Nat)
    (fetch : Nat → Option Bytes × ChunkSource) {obj : ObjectInfo} {request : HttpRequest}
    {info : CacheKeyInfo} {range : ByteRange} (hpos : obj.size ≠ 0)
    (hmethod : request.method = ascii "GET") (hinfo : parseCacheKey request = some info)
    (hbucket : allowedBucket = [] ∨ info.bucket = allowedBucket)
    (hrange : requestedRange request obj.size = range) (hvalid : range.valid = true) :
    handleRequestFrom allowedBucket chunkSize obj fetch request =
      match assembleChunks (m := Id) chunkSize range (fun _ _ => pure ())
          (fun idx => pure (fetch idx)) (range.stop / chunkSize + 1 - range.start / chunkSize)
          (range.start / chunkSize) {} with
      | none => { response := badGateway }
      | some a =>
          { response := chunkResponse (request.hasHeader (ascii "Range")) range obj a
            fetched := a.fetched
            outOfBounds := a.outOfBounds } := by
  subst hrange
  have haccepted : (request.hasHeader (ascii "Range") &&
      !(requestedRange request obj.size).valid) = false := by
    simp [hvalid]
  rw [handleRequestFrom_found hmethod hinfo hbucket]
  unfold serveObject
  simp only [haccepted, Bool.false_eq_true, if_false, if_neg hpos]
  change (match assembleChunks (m := Id) _ _ _ _ _ _ _ with
    | none => _
    | some a => _) = _
  split <;> rfl

end ElioP2P.Proxy
