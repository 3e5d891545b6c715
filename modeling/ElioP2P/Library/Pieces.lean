import ElioP2P.Library.Bytes
import ElioP2P.Library.Coroutine

/-!
# One coroutine and a stream that arrives in pieces

A coroutine that nobody interferes with runs to its end against an environment
that answers its questions.  The environment of a reader is a byte stream cut
into pieces: a read gets what is left of the first piece, up to the length it
asks for.  As the cut is arbitrary, this covers every way in which a network may
hand the stream over.
-/

namespace ElioP2P.Library

variable {S : Signature} {α β τ : Type}

namespace Coroutine

/-- Run to the end; `respond` answers the questions and nobody else touches the
state. -/
def runAlone (respond : (e : S.External) → τ → Option (S.Answer e × τ)) :
    Coroutine S α → S.State → τ → Option (α × S.State × τ)
  | .done value, s, env => some (value, s, env)
  | .diverge, _, _ | .raise, _, _ => none
  | .get next, s, env => (next s).runAlone respond s env
  | .set s next, _, env => next.runAlone respond s env
  | .publish _ next, s, env => next.runAlone respond s env
  | .await (.external e) next, s, env =>
      (respond e env).bind fun answered => (next answered.1).runAlone respond s answered.2
  | .await (.spawn _) _, _, _ => none
  | .await (.join _ _) _, _, _ => none

variable {respond : (e : S.External) → τ → Option (S.Answer e × τ)}

theorem runAlone_bind (c : Coroutine S α) (k : α → Coroutine S β) (s : S.State) (env : τ) :
    (c >>= k).runAlone respond s env =
      (c.runAlone respond s env).bind fun r => (k r.1).runAlone respond r.2.1 r.2.2 := by
  change (c.bind k).runAlone respond s env = _
  induction c generalizing s env with
  | done value => rfl
  | diverge => rfl
  | raise => rfl
  | get next ih => exact ih s s env
  | set s' next ih => exact ih s' env
  | publish f next ih => exact ih s env
  | await w next ih =>
      cases w with
      | external e =>
          simp only [Coroutine.bind, runAlone]
          cases respond e env with
          | none => rfl
          | some answered => exact ih answered.1 s answered.2
      | spawn job => rfl
      | join id job => rfl

theorem runAlone_bind_of_eq {c : Coroutine S α} {k : α → Coroutine S β} {s s' : S.State}
    {env env' : τ} {value : α} (h : c.runAlone respond s env = some (value, s', env')) :
    (c >>= k).runAlone respond s env = (k value).runAlone respond s' env' := by
  rw [runAlone_bind, h]
  rfl

end Coroutine

/-! ## Pieces -/

def readPiece (n : Nat) : List Bytes → { bytes : Bytes // bytes.length ≤ n } × List Bytes
  | [] => (⟨[], Nat.zero_le n⟩, [])
  | piece :: pieces =>
      (⟨piece.take n, List.length_take_le n piece⟩,
        if piece.length ≤ n then pieces else piece.drop n :: pieces)

theorem readPiece_flatten (n : Nat) (pieces : List Bytes) :
    (readPiece n pieces).1.val ++ (readPiece n pieces).2.flatten = pieces.flatten := by
  cases pieces with
  | nil => rfl
  | cons piece pieces =>
      simp only [readPiece, List.flatten_cons]
      split
      · rename_i hshort
        rw [List.take_of_length_le hshort]
      · rw [List.flatten_cons, ← List.append_assoc, List.take_append_drop]

theorem readPiece_nonempty {n : Nat} {pieces : List Bytes}
    (hpieces : ∀ piece ∈ pieces, piece ≠ []) :
    ∀ piece ∈ (readPiece n pieces).2, piece ≠ [] := by
  cases pieces with
  | nil => exact hpieces
  | cons piece pieces =>
      have hrest : ∀ p ∈ pieces, p ≠ [] := fun p hp => hpieces p (List.mem_cons_of_mem _ hp)
      simp only [readPiece]
      split
      · exact hrest
      · rename_i hlong
        intro p hp
        rcases List.mem_cons.mp hp with rfl | hp
        · rw [Ne, List.drop_eq_nil_iff]
          exact hlong
        · exact hrest p hp

/-- Only the end of the stream gives an empty read. -/
theorem readPiece_eq_nil {n : Nat} (hn : 0 < n) {pieces : List Bytes}
    (hpieces : ∀ piece ∈ pieces, piece ≠ []) (h : (readPiece n pieces).1.val = []) :
    pieces = [] := by
  cases pieces with
  | nil => rfl
  | cons piece pieces =>
      have hpiece := hpieces piece List.mem_cons_self
      rcases List.take_eq_nil_iff.mp h with hzero | hnil
      · omega
      · exact absurd hnil hpiece

end ElioP2P.Library
