import ElioP2P.Library.Bytes

/-!
# A stream read into a buffer

A reader appends what it receives to a buffer until it finds in there what it is
looking for.  A search whose result does not change when the buffer grows gives
the same for every way in which the stream is cut into pieces: what it gives on
the whole stream.
-/

namespace ElioP2P.Library

/-- What one read of at most `limit` bytes can get before the stream ends. -/
abbrev Piece (limit : Nat) := { bytes : Bytes // 0 < bytes.length ∧ bytes.length ≤ limit }

structure Inflow (limit : Nat) where
  buffer : Bytes := []
  pieces : List (Piece limit)

variable {limit : Nat} {α : Type*}

namespace Inflow

def stream (c : Inflow limit) : Bytes := c.buffer ++ c.pieces.flatMap Subtype.val

/-- Read on until `seek` finds something in the buffer; `none` if the stream ends
before. -/
def readUntil (seek : Bytes → Option α) (buffer : Bytes) :
    List (Piece limit) → Option α × Inflow limit
  | [] => (seek buffer, ⟨buffer, []⟩)
  | piece :: pieces =>
      match seek buffer with
      | some found => (some found, ⟨buffer, piece :: pieces⟩)
      | none => readUntil seek (buffer ++ piece.val) pieces

def await (seek : Bytes → Option α) (c : Inflow limit) : Option α × Inflow limit :=
  readUntil seek c.buffer c.pieces

variable {seek : Bytes → Option α}

theorem readUntil_spec (seek : Bytes → Option α) (buffer : Bytes) (pieces : List (Piece limit)) :
    (readUntil seek buffer pieces).2.stream = buffer ++ pieces.flatMap Subtype.val ∧
      (readUntil seek buffer pieces).1 = seek (readUntil seek buffer pieces).2.buffer ∧
      ((readUntil seek buffer pieces).1 = none → (readUntil seek buffer pieces).2.pieces = []) := by
  induction pieces generalizing buffer with
  | nil => exact ⟨rfl, rfl, fun _ => rfl⟩
  | cons piece pieces ih =>
      unfold readUntil
      cases hseek : seek buffer with
      | some found => exact ⟨rfl, hseek.symm, fun h => nomatch h⟩
      | none =>
          obtain ⟨hstream, hfound, hend⟩ := ih (buffer ++ piece.val)
          refine ⟨?_, hfound, hend⟩
          rw [hstream, List.flatMap_cons, List.append_assoc]

/-- Reading on neither loses nor invents anything. -/
@[simp] theorem stream_await (seek : Bytes → Option α) (c : Inflow limit) :
    (c.await seek).2.stream = c.stream :=
  (readUntil_spec seek c.buffer c.pieces).1

theorem seek_await (seek : Bytes → Option α) (c : Inflow limit) :
    seek (c.await seek).2.buffer = (c.await seek).1 :=
  (readUntil_spec seek c.buffer c.pieces).2.1.symm

/-- Only the whole stream can lack what is sought. -/
theorem buffer_await_of_none {c : Inflow limit} (h : (c.await seek).1 = none) :
    (c.await seek).2.buffer = c.stream := by
  have hend : (c.await seek).2.pieces = [] := (readUntil_spec seek c.buffer c.pieces).2.2 h
  rw [← stream_await seek c, stream, hend, List.flatMap_nil, List.append_nil]

theorem buffer_isPrefix (c : Inflow limit) : c.buffer <+: c.stream := List.prefix_append _ _

end Inflow

/-! ## Searches in a growing buffer -/

/-- What is found in a text is found in every longer one. -/
def Persistent (seek : Bytes → Option α) : Prop :=
  ∀ text more found, seek text = some found → seek (text ++ more) = some found

theorem Persistent.of_isPrefix {seek : Bytes → Option α} (h : Persistent seek) {text stream : Bytes}
    {found : α} (hstart : text <+: stream) (hfound : seek text = some found) :
    seek stream = some found := by
  obtain ⟨more, rfl⟩ := hstart
  exact h text more found hfound

/-- The cut of the stream makes no difference. -/
theorem Persistent.await_eq {seek : Bytes → Option α} (h : Persistent seek) (c : Inflow limit) :
    (c.await seek).1 = seek c.stream := by
  cases hfound : (c.await seek).1 with
  | none => rw [← Inflow.buffer_await_of_none hfound, Inflow.seek_await seek c, hfound]
  | some found =>
      have hstart := Inflow.buffer_isPrefix (c.await seek).2
      rw [Inflow.stream_await] at hstart
      exact (h.of_isPrefix hstart ((Inflow.seek_await seek c).trans hfound)).symm

/-- What is found, what has been read by then, and what is still to come. -/
theorem Persistent.await_cases {seek : Bytes → Option α} (h : Persistent seek) (c : Inflow limit) :
    (seek c.stream = none ∧ ∃ c', c.await seek = (none, c')) ∨
      ∃ found c', seek c.stream = some found ∧ c.await seek = (some found, c') ∧
        c'.stream = c.stream ∧ seek c'.buffer = some found := by
  have hfound := h.await_eq c
  have hbuffer := c.seek_await seek
  have hstream := c.stream_await seek
  generalize c.await seek = awaited at *
  obtain ⟨found, c'⟩ := awaited
  cases found with
  | none => exact .inl ⟨hfound.symm, c', rfl⟩
  | some found => exact .inr ⟨found, c', hfound.symm, rfl, hstream, hbuffer⟩

def atLeast (need : Nat) (text : Bytes) : Option Unit :=
  if need ≤ text.length then some () else none

theorem atLeast_eq_some_iff {need : Nat} {text : Bytes} :
    atLeast need text = some () ↔ need ≤ text.length := by
  unfold atLeast
  split <;> simp_all

theorem persistent_atLeast (need : Nat) : Persistent (atLeast need) := by
  intro text more _ hfound
  rw [atLeast_eq_some_iff] at hfound ⊢
  rw [List.length_append]
  omega

end ElioP2P.Library
