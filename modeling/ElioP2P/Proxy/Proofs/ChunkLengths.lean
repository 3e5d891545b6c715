import ElioP2P.Proxy.Proofs.Assembly
import Mathlib.Algebra.BigOperators.Intervals
import Mathlib.Algebra.Order.BigOperators.Group.Finset
import Mathlib.Order.Interval.Finset.Nat

/-!
# Chunks of any length

The assembly loop takes its slice ends from the requested range, not from the
data it was given.  This module drops the assumption that a chunk has its nominal
size and says for which lengths the slices stay inside the data and the body is
as long as the range.
-/

namespace ElioP2P.Proxy

open ElioP2P.Library

section Loop

variable {chunkSize : Nat} {range : ByteRange}

def sliceBegin (chunkSize : Nat) (range : ByteRange) (i : Nat) : Nat :=
  if i = range.start / chunkSize then range.start % chunkSize else 0

def sliceEnd (chunkSize : Nat) (range : ByteRange) (i length : Nat) : Nat :=
  if i = range.stop / chunkSize then range.stop % chunkSize + 1 else length

def sliceLength (chunkSize : Nat) (range : ByteRange) (i length : Nat) : Nat :=
  min (sliceEnd chunkSize range i length) length - sliceBegin chunkSize range i

def SliceOutside (chunkSize : Nat) (range : ByteRange) (i length : Nat) : Prop :=
  sliceBegin chunkSize range i < sliceEnd chunkSize range i length ∧
    length < sliceEnd chunkSize range i length

theorem add_lengths (a : Assembly) (i : Nat) (data : Bytes) (source : ChunkSource) :
    (a.add chunkSize range ⟨i, data, source⟩).body.length =
        a.body.length + sliceLength chunkSize range i data.length ∧
      ((a.add chunkSize range ⟨i, data, source⟩).outOfBounds = true ↔
        a.outOfBounds = true ∨ SliceOutside chunkSize range i data.length) := by
  constructor
  · by_cases hskip : sliceEnd chunkSize range i data.length ≤ sliceBegin chunkSize range i
    · have hbody : (a.add chunkSize range ⟨i, data, source⟩).body = a.body :=
        if_pos (decide_eq_true hskip)
      rw [hbody, sliceLength]
      omega
    · have hbody : (a.add chunkSize range ⟨i, data, source⟩).body = a.body ++
          (data.take (sliceEnd chunkSize range i data.length)).drop
            (sliceBegin chunkSize range i) := if_neg (by rwa [decide_eq_true_eq])
      rw [hbody, List.length_append, List.length_drop, List.length_take, sliceLength]
  · change (a.outOfBounds || (!decide (sliceEnd chunkSize range i data.length ≤
      sliceBegin chunkSize range i) &&
        decide (data.length < sliceEnd chunkSize range i data.length))) = true ↔ _
    rw [Bool.or_eq_true, Bool.and_eq_true, Bool.not_eq_true', decide_eq_false_iff_not,
      decide_eq_true_eq, Nat.not_le]
    rfl

theorem assembleChunks_lengths {fetch : Nat → Id (Option Bytes × ChunkSource)} {data : Nat → Bytes}
    {rounds idx : Nat} {a : Assembly}
    (hdata : ∀ i, idx ≤ i → i < idx + rounds → (fetch i).1 = some (data i)) :
    ∃ a', assembleChunks (m := Id) chunkSize range (fun _ _ => pure ()) fetch rounds idx a =
        some a' ∧
      a'.body.length = a.body.length +
        ∑ i ∈ Finset.Ico idx (idx + rounds), sliceLength chunkSize range i (data i).length ∧
      (a'.outOfBounds = true ↔ a.outOfBounds = true ∨
        ∃ i, idx ≤ i ∧ i < idx + rounds ∧ SliceOutside chunkSize range i (data i).length) := by
  induction rounds generalizing idx a with
  | zero =>
      refine ⟨a, rfl, by simp, ?_⟩
      constructor
      · exact .inl
      · rintro (h | ⟨i, hle, hlt, -⟩)
        · exact h
        · omega
  | succ rounds ih =>
      obtain ⟨hlength, hbounds⟩ :=
        @add_lengths chunkSize range a idx (data idx) (fetch idx).2
      obtain ⟨a', hrun, hbody, houtside⟩ := @ih (idx + 1)
        (a.add chunkSize range ⟨idx, data idx, (fetch idx).2⟩)
        fun i hle hlt => hdata i (by omega) (by omega)
      refine ⟨a', ?_, ?_, ?_⟩
      · rw [assembleChunks_succ, hdata idx (Nat.le_refl _) (by omega)]
        exact hrun
      · have hIco : ∑ i ∈ Finset.Ico idx (idx + (rounds + 1)),
            sliceLength chunkSize range i (data i).length =
              sliceLength chunkSize range idx (data idx).length +
                ∑ i ∈ Finset.Ico (idx + 1) (idx + 1 + rounds),
                  sliceLength chunkSize range i (data i).length := by
          rw [Finset.sum_eq_sum_Ico_succ_bot (by omega), Nat.add_right_comm idx 1 rounds]
          rfl
        rw [hbody, hlength, hIco, Nat.add_assoc]
      · rw [houtside, hbounds, or_assoc]
        refine or_congr_right ⟨?_, ?_⟩
        · rintro (h | ⟨i, hle, hlt, h⟩)
          · exact ⟨idx, Nat.le_refl _, by omega, h⟩
          · exact ⟨i, by omega, by omega, h⟩
        · rintro ⟨i, hle, hlt, h⟩
          rcases Nat.eq_or_lt_of_le hle with rfl | hlt'
          · exact .inl h
          · exact .inr ⟨i, by omega, by omega, h⟩

end Loop

/-! ## Which lengths fit -/

/-- The last chunk of the range has the bytes up to its end, and those before it
have as many as if each had its nominal size. -/
structure LengthsFit (chunkSize : Nat) (range : ByteRange) (length : Nat → Nat) : Prop where
  last : range.stop % chunkSize < length (range.stop / chunkSize)
  before : range.start / chunkSize < range.stop / chunkSize →
    length (range.start / chunkSize) - range.start % chunkSize +
        ∑ i ∈ Finset.Ioo (range.start / chunkSize) (range.stop / chunkSize), length i =
      (range.stop / chunkSize - range.start / chunkSize) * chunkSize - range.start % chunkSize

theorem mod_le_of_div_lt {a b chunkSize : Nat} (hlt : a / chunkSize < b / chunkSize) :
    a % chunkSize ≤ chunkSize := by
  rcases Nat.eq_zero_or_pos chunkSize with hzero | hpos
  · rw [hzero, Nat.div_zero, Nat.div_zero] at hlt
    omega
  · exact (Nat.mod_lt _ hpos).le

theorem lengthsFit_nominal {chunkSize : Nat} {range : ByteRange} {length : Nat → Nat}
    (hlast : range.stop % chunkSize < length (range.stop / chunkSize))
    (hlength : ∀ i, range.start / chunkSize ≤ i → i < range.stop / chunkSize →
      length i = chunkSize) :
    LengthsFit chunkSize range length := by
  refine ⟨hlast, fun hlt => ?_⟩
  have hsum : ∑ i ∈ Finset.Ioo (range.start / chunkSize) (range.stop / chunkSize), length i =
      (range.stop / chunkSize - range.start / chunkSize - 1) * chunkSize := by
    rw [Finset.sum_congr rfl fun i hi => hlength i (Finset.mem_Ioo.mp hi).1.le
      (Finset.mem_Ioo.mp hi).2, Finset.sum_const_nat fun _ _ => rfl, Nat.card_Ioo]
  obtain ⟨n, hn⟩ : ∃ n, range.stop / chunkSize - range.start / chunkSize = n + 1 :=
    ⟨range.stop / chunkSize - range.start / chunkSize - 1, by omega⟩
  rw [hsum, hlength _ (Nat.le_refl _) hlt, hn, Nat.add_sub_cancel, Nat.succ_mul]
  have hmod := mod_le_of_div_lt hlt
  omega

/-- Only the slice of the last chunk can run past the end of the data. -/
theorem sliceOutside_iff {chunkSize : Nat} {range : ByteRange} (hle : range.start ≤ range.stop)
    {i length : Nat} :
    SliceOutside chunkSize range i length ↔
      i = range.stop / chunkSize ∧ length < range.stop % chunkSize + 1 := by
  unfold SliceOutside sliceEnd sliceBegin
  by_cases hlast : i = range.stop / chunkSize
  · simp only [hlast, if_true, true_and]
    constructor
    · exact And.right
    · intro hlt
      refine ⟨?_, hlt⟩
      split
      · next hfirst =>
          -- The range begins in the chunk in which it ends.
          have hstart := Nat.div_add_mod range.start chunkSize
          have hstop := Nat.div_add_mod range.stop chunkSize
          rw [hfirst] at hstop
          omega
      · omega
  · simp only [hlast, if_false, false_and, iff_false]
    omega

theorem sum_sliceLength {chunkSize : Nat} {range : ByteRange} (hle : range.start ≤ range.stop)
    {length : Nat → Nat} (hlast : range.stop % chunkSize < length (range.stop / chunkSize)) :
    ∑ i ∈ Finset.Ico (range.start / chunkSize) (range.stop / chunkSize + 1),
        sliceLength chunkSize range i (length i) = range.stop - range.start + 1 ↔
      (range.start / chunkSize < range.stop / chunkSize →
        length (range.start / chunkSize) - range.start % chunkSize +
            ∑ i ∈ Finset.Ioo (range.start / chunkSize) (range.stop / chunkSize), length i =
          (range.stop / chunkSize - range.start / chunkSize) * chunkSize -
            range.start % chunkSize) := by
  have hmono : range.start / chunkSize ≤ range.stop / chunkSize := Nat.div_le_div_right hle
  have hstart := Nat.div_add_mod' range.start chunkSize
  have hstop := Nat.div_add_mod' range.stop chunkSize
  rw [Finset.sum_Ico_succ_top hmono]
  rcases Nat.eq_or_lt_of_le hmono with heq | hlt
  · -- One chunk only: its slice begins and ends inside it.
    have hone : sliceLength chunkSize range (range.stop / chunkSize)
        (length (range.stop / chunkSize)) = range.stop % chunkSize + 1 -
          range.start % chunkSize := by
      rw [sliceLength, sliceEnd, sliceBegin, if_pos rfl, if_pos heq.symm, Nat.min_eq_left hlast]
    rw [hone, heq, Finset.Ico_self, Finset.sum_empty, Nat.zero_add]
    rw [heq] at hstart
    refine iff_of_true ?_ fun h => absurd h (Nat.lt_irrefl _)
    omega
  · have hend : sliceLength chunkSize range (range.stop / chunkSize)
        (length (range.stop / chunkSize)) = range.stop % chunkSize + 1 := by
      rw [sliceLength, sliceEnd, sliceBegin, if_pos rfl, if_neg (Nat.ne_of_gt hlt),
        Nat.min_eq_left hlast, Nat.sub_zero]
    have hbegin : sliceLength chunkSize range (range.start / chunkSize)
        (length (range.start / chunkSize)) =
          length (range.start / chunkSize) - range.start % chunkSize := by
      rw [sliceLength, sliceEnd, sliceBegin, if_neg (Nat.ne_of_lt hlt), if_pos rfl, Nat.min_self]
    have hmiddle : ∑ i ∈ Finset.Ico (range.start / chunkSize + 1) (range.stop / chunkSize),
        sliceLength chunkSize range i (length i) =
          ∑ i ∈ Finset.Ioo (range.start / chunkSize) (range.stop / chunkSize), length i := by
      refine Finset.sum_congr rfl fun i hi => ?_
      obtain ⟨hfirst, hstop⟩ := Finset.mem_Ico.mp hi
      rw [sliceLength, sliceEnd, sliceBegin, if_neg (by omega), if_neg (by omega), Nat.min_self,
        Nat.sub_zero]
    rw [hend, Finset.sum_eq_sum_Ico_succ_bot hlt, hbegin, hmiddle]
    have hwhole : (range.stop / chunkSize - range.start / chunkSize) * chunkSize =
        range.stop / chunkSize * chunkSize - range.start / chunkSize * chunkSize :=
      Nat.sub_mul _ _ _
    have hfar : (range.start / chunkSize + 1) * chunkSize ≤ range.stop / chunkSize * chunkSize :=
      Nat.mul_le_mul_right _ hlt
    rw [Nat.succ_mul] at hfar
    have hmod := mod_le_of_div_lt hlt
    rw [forall_prop_of_true hlt]
    omega

/-! ## Responses -/

def handleRequestOf (allowedBucket : Bytes) (chunkSize : Nat)
    (lookup : CacheKeyInfo → Option ObjectInfo)
    (fetch : CacheKeyInfo → ObjectInfo → Nat → Option Bytes × ChunkSource)
    (request : HttpRequest) : Handled :=
  handleRequestWith (m := Id) allowedBucket chunkSize (fun _ => pure ())
    (fun info => pure (lookup info)) (fun info obj idx => pure (fetch info obj idx)) request

structure ReachesLoop (allowedBucket : Bytes) (lookup : CacheKeyInfo → Option ObjectInfo)
    (request : HttpRequest) (info : CacheKeyInfo) (obj : ObjectInfo) : Prop where
  key : parseCacheKey request = some info
  bucket : allowedBucket = [] ∨ info.bucket = allowedBucket
  found : lookup info = some obj
  nonempty : 0 < obj.size
  accepted : (requestedRange request obj.size).valid = true

/-- The slices lie inside the data, and the body of a 200 or 206 for an object
that is not empty is as long as the range. -/
structure ServesRange (lookup : CacheKeyInfo → Option ObjectInfo) (request : HttpRequest)
    (handled : Handled) : Prop where
  inside : handled.outOfBounds = false
  length : ∀ info obj, parseCacheKey request = some info → lookup info = some obj →
    0 < obj.size → handled.response.statusCode = 200 ∨ handled.response.statusCode = 206 →
      handled.response.body.length =
        (requestedRange request obj.size).stop - (requestedRange request obj.size).start + 1

section Responses

variable {allowedBucket : Bytes} {chunkSize : Nat} {lookup : CacheKeyInfo → Option ObjectInfo}
  {fetch : CacheKeyInfo → ObjectInfo → Nat → Option Bytes × ChunkSource} {request : HttpRequest}

theorem handleRequestOf_eq {info : CacheKeyInfo} {obj : ObjectInfo}
    (hkey : parseCacheKey request = some info) (hfound : lookup info = some obj) :
    handleRequestOf allowedBucket chunkSize lookup fetch request =
      handleRequestFrom allowedBucket chunkSize obj (fetch info obj) request := by
  unfold handleRequestOf handleRequestFrom handleRequestWith
  simp only [hkey, hfound]
  rfl

theorem handleRequestOf_refused (hget : request.method = ascii "GET")
    (hnot : ∀ info obj, parseCacheKey request = some info → lookup info = some obj →
      ¬ (allowedBucket = [] ∨ info.bucket = allowedBucket)) :
    ∃ response, handleRequestOf allowedBucket chunkSize lookup fetch request =
      { response := response } ∧
        (response.statusCode = 400 ∨ response.statusCode = 403 ∨ response.statusCode = 404) := by
  have hmethod : (request.method != ascii "GET" && !request.method == ascii "HEAD") = false := by
    rw [hget]
    rfl
  unfold handleRequestOf handleRequestWith
  simp only [hmethod, Bool.false_eq_true, if_false]
  cases hkey : parseCacheKey request with
  | none => exact ⟨badRequest, rfl, .inl rfl⟩
  | some info =>
      by_cases hbucket : (!allowedBucket.isEmpty && info.bucket != allowedBucket) = true
      · simp only [hbucket, if_true]
        exact ⟨forbidden info.bucket, rfl, .inr (.inl rfl)⟩
      · simp only [hbucket, Bool.false_eq_true, if_false]
        cases hfound : lookup info with
        | none => exact ⟨notFound info.fullObjectKey, rfl, .inr (.inr rfl)⟩
        | some obj =>
            refine absurd ?_ (hnot info obj hkey hfound)
            simpa [← or_iff_not_imp_left] using hbucket

/-- A GET that is answered before the loop is answered without slices, and only
for an empty object with 200. -/
theorem servesRange_of_not_reached (hget : request.method = ascii "GET")
    (hnot : ∀ info obj, ¬ ReachesLoop allowedBucket lookup request info obj) :
    ServesRange lookup request
      (handleRequestOf allowedBucket chunkSize lookup fetch request) := by
  by_cases hserved : ∃ info obj, parseCacheKey request = some info ∧ lookup info = some obj ∧
      (allowedBucket = [] ∨ info.bucket = allowedBucket)
  · obtain ⟨info, obj, hkey, hfound, hbucket⟩ := hserved
    have hunaccepted : 0 < obj.size → ¬ (requestedRange request obj.size).valid = true :=
      fun hpos hvalid => hnot info obj ⟨hkey, hbucket, hfound, hpos, hvalid⟩
    rw [handleRequestOf_eq hkey hfound, handleRequestFrom_found hget hkey hbucket]
    unfold serveObject
    by_cases hrefused : (request.hasHeader (ascii "Range") &&
        !(requestedRange request obj.size).valid) = true
    · simp only [hrefused, if_true]
      refine ⟨rfl, fun _ _ _ _ _ hstatus => ?_⟩
      rcases hstatus with hstatus | hstatus <;> cases hstatus
    · simp only [hrefused, Bool.false_eq_true, if_false]
      have hempty : obj.size = 0 := by
        by_contra hsize
        have hpos : 0 < obj.size := Nat.pos_of_ne_zero hsize
        have hheader : request.hasHeader (ascii "Range") = false := by
          simpa [hunaccepted hpos] using hrefused
        refine hunaccepted hpos ?_
        rw [requestedRange, hheader, if_neg Bool.false_ne_true]
        exact decide_eq_true hpos
      rw [if_pos hempty]
      refine ⟨rfl, fun info' obj' hkey' hfound' hpos _ => ?_⟩
      rw [← Option.some.inj (hkey.symm.trans hkey'), hfound] at hfound'
      rw [← Option.some.inj hfound'] at hpos
      omega
  · obtain ⟨response, heq, hstatus⟩ := @handleRequestOf_refused allowedBucket chunkSize lookup
      fetch request hget fun info obj hkey hfound hbucket =>
        hserved ⟨info, obj, hkey, hfound, hbucket⟩
    rw [heq]
    refine ⟨rfl, fun _ _ _ _ _ hok => ?_⟩
    simp only at hok
    omega

theorem servesRange_of_delivered {info : CacheKeyInfo} {obj : ObjectInfo}
    (hget : request.method = ascii "GET")
    (h : ReachesLoop allowedBucket lookup request info obj) {data : Nat → Bytes}
    (hdata : ∀ i, (requestedRange request obj.size).start / chunkSize ≤ i →
      i ≤ (requestedRange request obj.size).stop / chunkSize →
        (fetch info obj i).1 = some (data i)) :
    ServesRange lookup request (handleRequestOf allowedBucket chunkSize lookup fetch request) ↔
      LengthsFit chunkSize (requestedRange request obj.size) fun i => (data i).length := by
  have hbounds := requestedRange_bounds h.nonempty h.accepted
  rw [handleRequestOf_eq h.key h.found,
    handleRequestFrom_eq allowedBucket chunkSize (fetch info obj) (Nat.ne_of_gt h.nonempty) hget
      h.key h.bucket rfl h.accepted]
  generalize hrange : requestedRange request obj.size = range at hbounds hdata ⊢
  have hmono : range.start / chunkSize ≤ range.stop / chunkSize :=
    Nat.div_le_div_right hbounds.1
  have hrounds : range.start / chunkSize +
      (range.stop / chunkSize + 1 - range.start / chunkSize) = range.stop / chunkSize + 1 := by
    omega
  obtain ⟨a, hrun, hbody, houtside⟩ := @assembleChunks_lengths chunkSize range
    (fun idx => pure (fetch info obj idx)) data
    (range.stop / chunkSize + 1 - range.start / chunkSize) (range.start / chunkSize) {}
    fun i hfirst hlast => hdata i hfirst (by omega)
  rw [hrounds] at hbody houtside
  simp only [List.length_nil, Nat.zero_add, Bool.false_eq_true, false_or,
    sliceOutside_iff hbounds.1] at hbody houtside
  have hinside : a.outOfBounds = false ↔
      range.stop % chunkSize < (data (range.stop / chunkSize)).length := by
    rw [← Bool.not_eq_true, houtside]
    constructor
    · intro hnone
      by_contra hshort
      exact hnone ⟨_, hmono, Nat.lt_succ_self _, rfl, by omega⟩
    · rintro hlong ⟨i, -, -, rfl, hshort⟩
      omega
  obtain ⟨hstatus, hcopied, -⟩ :=
    chunkResponse_spec (request.hasHeader (ascii "Range")) range obj a
  simp only [hrun]
  constructor
  · rintro ⟨hbound, hlength⟩
    have hlast := hinside.mp hbound
    refine ⟨hlast, (@sum_sliceLength chunkSize range hbounds.1 (fun i => (data i).length)
      hlast).mp ?_⟩
    have hok : (chunkResponse (request.hasHeader (ascii "Range")) range obj a).statusCode = 200 ∨
        (chunkResponse (request.hasHeader (ascii "Range")) range obj a).statusCode = 206 := by
      rw [hstatus]
      cases request.hasHeader (ascii "Range")
      · exact .inl rfl
      · exact .inr rfl
    have hcomplete := hlength info obj h.key h.found h.nonempty hok
    rw [hrange] at hcomplete
    rw [← hbody, ← hcopied]
    exact hcomplete
  · rintro ⟨hlast, hbefore⟩
    refine ⟨hinside.mpr hlast, fun info' obj' hkey hfound _ _ => ?_⟩
    rw [← Option.some.inj (h.key.symm.trans hkey), h.found] at hfound
    rw [hcopied, hbody, ← Option.some.inj hfound, hrange]
    exact (sum_sliceLength hbounds.1 hlast).mpr hbefore

theorem servesRange_of_failed {info : CacheKeyInfo} {obj : ObjectInfo}
    (hget : request.method = ascii "GET")
    (h : ReachesLoop allowedBucket lookup request info obj) {i : Nat}
    (hfirst : (requestedRange request obj.size).start / chunkSize ≤ i)
    (hlast : i ≤ (requestedRange request obj.size).stop / chunkSize)
    (hfail : (fetch info obj i).1 = none) :
    ServesRange lookup request
      (handleRequestOf allowedBucket chunkSize lookup fetch request) := by
  rw [handleRequestOf_eq h.key h.found,
    handleRequestFrom_eq allowedBucket chunkSize (fetch info obj) (Nat.ne_of_gt h.nonempty) hget
      h.key h.bucket rfl h.accepted]
  have hnone := @assembleChunks_failed chunkSize (requestedRange request obj.size)
    (fun idx => pure (fetch info obj idx)) ((requestedRange request obj.size).stop / chunkSize + 1 -
      (requestedRange request obj.size).start / chunkSize) _ i {} hfirst (by omega) hfail
  simp only [hnone]
  refine ⟨rfl, fun _ _ _ _ _ hstatus => ?_⟩
  rcases hstatus with hstatus | hstatus <;> cases hstatus

/-- The slices of a GET stay inside the data and the body is complete exactly if
the lengths of the delivered chunks fit. -/
theorem handleRequestOf_servesRange_iff (hget : request.method = ascii "GET") :
    ServesRange lookup request (handleRequestOf allowedBucket chunkSize lookup fetch request) ↔
      ∀ info obj, ReachesLoop allowedBucket lookup request info obj → ∀ data : Nat → Bytes,
        (∀ i, (requestedRange request obj.size).start / chunkSize ≤ i →
          i ≤ (requestedRange request obj.size).stop / chunkSize →
            (fetch info obj i).1 = some (data i)) →
          LengthsFit chunkSize (requestedRange request obj.size) fun i => (data i).length := by
  constructor
  · intro hserves info obj h data hdata
    exact (servesRange_of_delivered hget h hdata).mp hserves
  · intro hfit
    by_cases hreached : ∃ info obj, ReachesLoop allowedBucket lookup request info obj
    · obtain ⟨info, obj, h⟩ := hreached
      by_cases hfail : ∃ i, (requestedRange request obj.size).start / chunkSize ≤ i ∧
          i ≤ (requestedRange request obj.size).stop / chunkSize ∧ (fetch info obj i).1 = none
      · obtain ⟨i, hfirst, hlast, hnone⟩ := hfail
        exact servesRange_of_failed hget h hfirst hlast hnone
      · have hdata : ∀ i, (requestedRange request obj.size).start / chunkSize ≤ i →
            i ≤ (requestedRange request obj.size).stop / chunkSize →
              (fetch info obj i).1 = some ((fetch info obj i).1.getD []) := by
          intro i hfirst hlast
          cases hread : (fetch info obj i).1 with
          | none => exact absurd ⟨i, hfirst, hlast, hread⟩ hfail
          | some data => rfl
        exact (servesRange_of_delivered hget h hdata).mpr (hfit info obj h _ hdata)
    · exact servesRange_of_not_reached hget fun info obj h => hreached ⟨info, obj, h⟩

end Responses

def tailGet : HttpRequest :=
  { method := ascii "GET"
    path := ascii "/b/k"
    headers := AList.singleton (ascii "Range") (ascii "bytes=1048576-") }

def oneByte (_ : CacheKeyInfo) (_ : ObjectInfo) (_ : Nat) : Option Bytes × ChunkSource :=
  (some [4], .p2p)

theorem requestedRange_tailGet :
    requestedRange tailGet 1048577 = ⟨1048576, 1048576, true⟩ ∧
      requestedRange tailGet 1048578 = ⟨1048576, 1048577, true⟩ := by decide

theorem handleRequestOf_servesRange_last :
    ServesRange (fun _ => some { size := 1048577 }) tailGet
      (handleRequestOf [] 1048576 (fun _ => some { size := 1048577 }) oneByte tailGet) :=
  (handleRequestOf_servesRange_iff rfl).mpr fun info obj h data hdata => by
    cases h.found
    simp only [requestedRange_tailGet.1] at hdata ⊢
    have hlast : [4] = data 1 := Option.some.inj (hdata 1 (by decide) (by decide))
    refine ⟨?_, fun hlt => absurd hlt (by decide)⟩
    change 0 < (data 1).length
    rw [← hlast]
    decide

/-- The slice of the last chunk ends behind its only byte. -/
theorem not_servesRange_short :
    tailGet.method = ascii "GET" ∧
      ¬ ServesRange (fun _ => some { size := 1048578 }) tailGet
        (handleRequestOf [] 1048576 (fun _ => some { size := 1048578 }) oneByte tailGet) := by
  refine ⟨rfl, fun h => ?_⟩
  have hinside := h.inside
  revert hinside
  decide

end ElioP2P.Proxy
