import ElioP2P.Library.Buffering
import Mathlib.Data.List.Infix

/-!
# Lines that end with CRLF

Where `find` finds a pattern, in a text and in one that is still being read, and
in particular where it finds the end of a line and of a block of lines that an
empty line ends.
-/

namespace ElioP2P.Library

/-! ## Positions -/

theorem firstMatch_bound {pattern text : Bytes} {i : Nat} (h : firstMatch pattern text = some i) :
    i + pattern.length ≤ text.length := by
  induction text generalizing i with
  | nil =>
      cases pattern with
      | nil =>
          obtain rfl : 0 = i := by simpa [firstMatch] using h
          rfl
      | cons b pattern => simp [firstMatch] at h
  | cons b text ih =>
      unfold firstMatch at h
      split at h
      · rename_i hstart
        obtain rfl := Option.some.inj h
        rw [List.isPrefixOf_iff_prefix] at hstart
        simpa using hstart.length_le
      · obtain ⟨j, hj, rfl⟩ := Option.map_eq_some_iff.mp h
        have hbound := ih hj
        rw [List.length_cons]
        omega

theorem firstMatch_append_of_some {pattern text : Bytes} {i : Nat} (more : Bytes)
    (h : firstMatch pattern text = some i) : firstMatch pattern (text ++ more) = some i := by
  induction text generalizing i with
  | nil =>
      have hbound := firstMatch_bound h
      rw [List.length_nil] at hbound
      obtain rfl : pattern = [] := List.length_eq_zero_iff.mp (by omega)
      obtain rfl : 0 = i := by simpa [firstMatch] using h
      exact firstMatch_append [] more
  | cons b text ih =>
      unfold firstMatch at h
      rw [List.cons_append, firstMatch]
      split at h
      · rename_i hstart
        rw [List.isPrefixOf_iff_prefix] at hstart
        have hlong : pattern <+: b :: (text ++ more) :=
          hstart.trans (List.prefix_append (b :: text) more)
        rw [if_pos (List.isPrefixOf_iff_prefix.mpr hlong)]
        exact h
      · rename_i hstart
        obtain ⟨j, hj, rfl⟩ := Option.map_eq_some_iff.mp h
        have hbound := firstMatch_bound hj
        rw [if_neg, ih hj, Option.map_some]
        intro hlong
        rw [List.isPrefixOf_iff_prefix] at hstart hlong
        exact hstart (List.prefix_of_prefix_length_le hlong (List.prefix_append (b :: text) more)
          (by rw [List.length_cons]; omega))

theorem firstMatch_of_append {pattern text more : Bytes} {i : Nat}
    (h : firstMatch pattern (text ++ more) = some i) (hi : i + pattern.length ≤ text.length) :
    firstMatch pattern text = some i := by
  induction text generalizing i with
  | nil =>
      obtain ⟨rfl, hpattern⟩ := Nat.add_eq_zero_iff.mp (Nat.le_zero.mp hi)
      rw [List.length_eq_zero_iff.mp hpattern]
      rfl
  | cons b text ih =>
      rw [List.cons_append, firstMatch] at h
      rw [firstMatch]
      split at h
      · rename_i hlong
        obtain rfl := Option.some.inj h
        rw [List.isPrefixOf_iff_prefix] at hlong
        have hstart : pattern <+: b :: text :=
          List.prefix_of_prefix_length_le hlong (List.prefix_append (b :: text) more) (by omega)
        rw [if_pos (List.isPrefixOf_iff_prefix.mpr hstart)]
      · rename_i hlong
        obtain ⟨j, hj, rfl⟩ := Option.map_eq_some_iff.mp h
        rw [List.length_cons] at hi
        rw [if_neg, ih hj (by omega), Option.map_some]
        intro hstart
        rw [List.isPrefixOf_iff_prefix] at hstart hlong
        exact hlong (hstart.trans (List.prefix_append (b :: text) more))

theorem firstMatch_split {pattern text : Bytes} {i : Nat} (h : firstMatch pattern text = some i) :
    pattern <+: text.drop i := by
  induction text generalizing i with
  | nil =>
      have hbound := firstMatch_bound h
      rw [List.length_nil] at hbound
      obtain rfl : pattern = [] := List.length_eq_zero_iff.mp (by omega)
      exact List.nil_prefix
  | cons b text ih =>
      unfold firstMatch at h
      split at h
      · rename_i hstart
        obtain rfl := Option.some.inj h
        exact List.isPrefixOf_iff_prefix.mp hstart
      · obtain ⟨j, hj, rfl⟩ := Option.map_eq_some_iff.mp h
        exact ih hj

theorem exists_firstMatch_le (front pattern rest : Bytes) :
    ∃ i ≤ front.length, firstMatch pattern (front ++ (pattern ++ rest)) = some i := by
  induction front with
  | nil => exact ⟨0, Nat.le_refl 0, firstMatch_append pattern rest⟩
  | cons b front ih =>
      obtain ⟨i, hi, hmatch⟩ := ih
      rw [List.cons_append, firstMatch]
      split
      · exact ⟨0, Nat.zero_le _, rfl⟩
      · exact ⟨i + 1, by rw [List.length_cons]; omega, by rw [hmatch, Option.map_some]⟩

theorem find_bounds {text pattern : Bytes} {start i : Nat} (h : find text pattern start = some i) :
    start ≤ i ∧ i + pattern.length ≤ text.length := by
  unfold find at h
  split at h
  · cases h
  · obtain ⟨j, hj, rfl⟩ := Option.map_eq_some_iff.mp h
    have hbound := firstMatch_bound hj
    rw [List.length_drop] at hbound
    omega

theorem persistent_find (pattern : Bytes) (start : Nat) :
    Persistent fun text => find text pattern start := by
  intro text more i h
  simp only [find] at h ⊢
  split at h
  · cases h
  · obtain ⟨j, hj, rfl⟩ := Option.map_eq_some_iff.mp h
    rw [if_neg (by rw [List.length_append]; omega), List.drop_append_of_le_length (by omega),
      firstMatch_append_of_some more hj, Option.map_some]

theorem find_of_append {pattern text more : Bytes} {start i : Nat}
    (h : find (text ++ more) pattern start = some i) (hi : i + pattern.length ≤ text.length) :
    find text pattern start = some i := by
  have hbounds := find_bounds h
  unfold find at h ⊢
  split at h
  · cases h
  · obtain ⟨j, hj, rfl⟩ := Option.map_eq_some_iff.mp h
    rw [List.drop_append_of_le_length (by omega)] at hj
    rw [if_neg (by omega), firstMatch_of_append hj (by rw [List.length_drop]; omega),
      Option.map_some]

theorem exists_of_find {pattern text : Bytes} {start i : Nat}
    (h : find text pattern start = some i) :
    ∃ front rest, text = front ++ (pattern ++ rest) ∧ front.length = i := by
  have hbounds := find_bounds h
  unfold find at h
  split at h
  · cases h
  · obtain ⟨j, hj, rfl⟩ := Option.map_eq_some_iff.mp h
    obtain ⟨rest, hrest⟩ := firstMatch_split hj
    refine ⟨text.take (j + start), rest, ?_, by rw [List.length_take]; omega⟩
    rw [hrest, List.drop_drop, Nat.add_comm start j, List.take_append_drop]

theorem exists_find_le {start : Nat} {front : Bytes} (pattern rest : Bytes)
    (hstart : start ≤ front.length) :
    ∃ i, start ≤ i ∧ i ≤ front.length ∧
      find (front ++ (pattern ++ rest)) pattern start = some i := by
  obtain ⟨i, hi, hmatch⟩ := exists_firstMatch_le (front.drop start) pattern rest
  rw [List.length_drop] at hi
  refine ⟨i + start, by omega, by omega, ?_⟩
  rw [find, if_neg (by rw [List.length_append]; omega),
    List.drop_append_of_le_length hstart, hmatch, Option.map_some]

theorem find_of_notMem {b : UInt8} {line : Bytes} (hline : b ∉ line) (front pattern rest : Bytes) :
    find (front ++ (line ++ ((b :: pattern) ++ rest))) (b :: pattern) front.length =
      some (front.length + line.length) := by
  rw [find, if_neg (by simp), List.drop_left, firstMatch_of_notMem hline, Option.map_some,
    Nat.add_comm]

theorem find_first_of_notMem {b : UInt8} {line : Bytes} (hline : b ∉ line) (pattern rest : Bytes) :
    find (line ++ ((b :: pattern) ++ rest)) (b :: pattern) 0 = some line.length :=
  (find_of_notMem hline [] pattern rest).trans (congrArg some (Nat.zero_add line.length))

theorem substr_front (front part rest : Bytes) :
    substr (front ++ (part ++ rest)) front.length part.length = part := by
  rw [substr, List.drop_left, List.take_left]

theorem substr_append_of_le {start count : Nat} {text : Bytes} (more : Bytes)
    (h : start + count ≤ text.length) :
    substr (text ++ more) start count = substr text start count := by
  rw [substr, substr, List.drop_append_of_le_length (by omega),
    List.take_append_of_le_length (by rw [List.length_drop]; omega)]

/-! ## Blocks of lines -/

def crlf : Bytes := [13, 10]

theorem find_crlf {line : Bytes} (hline : 13 ∉ line) (front rest : Bytes) :
    find (front ++ (line ++ (crlf ++ rest))) crlf front.length =
      some (front.length + line.length) :=
  find_of_notMem hline front [10] rest

def IsLine (line : Bytes) : Prop := line ≠ [] ∧ 13 ∉ line

def lineBlock (first : Bytes) (lines : List Bytes) : Bytes :=
  first ++ lines.flatMap fun line => crlf ++ line

theorem lineBlock_cons (first line : Bytes) (lines : List Bytes) :
    lineBlock first (line :: lines) = first ++ (crlf ++ lineBlock line lines) := by
  simp [lineBlock]

theorem exists_crlf_append (lines : List Bytes) (rest : Bytes) :
    ∃ tail, lines.flatMap (fun line => crlf ++ line) ++ (crlf ++ crlf ++ rest) = crlf ++ tail := by
  cases lines with
  | nil => exact ⟨crlf ++ rest, rfl⟩
  | cons line lines =>
      exact ⟨_, by rw [List.flatMap_cons, List.append_assoc, List.append_assoc]⟩

theorem firstMatch_append_of_notMem {b : UInt8} {front : Bytes} (hfront : b ∉ front)
    (pattern text : Bytes) :
    firstMatch (b :: pattern) (front ++ text) =
      (firstMatch (b :: pattern) text).map (· + front.length) := by
  induction front with
  | nil => simp
  | cons c front ih =>
      simp only [List.mem_cons, not_or] at hfront
      have hhead : (b == c) = false := beq_eq_false_iff_ne.mpr hfront.1
      rw [List.cons_append, firstMatch, List.isPrefixOf_cons_cons, hhead, ih hfront.2,
        Bool.false_and, if_neg Bool.false_ne_true, Option.map_map]
      rfl

/-- The end of a line is not the end of the block unless an empty line follows. -/
theorem firstMatch_crlf_append {text : Bytes} (htext : text.head? ≠ some 13) :
    firstMatch (crlf ++ crlf) (crlf ++ text) = (firstMatch (crlf ++ crlf) text).map (· + 2) := by
  have hfirst : List.isPrefixOf [13, 10, 13, 10] (13 :: 10 :: text) = false := by
    cases text with
    | nil => rfl
    | cons b text =>
        have hb : (13 == b) = false := beq_eq_false_iff_ne.mpr fun h => htext (by rw [← h]; rfl)
        simp only [List.isPrefixOf, hb, Bool.false_and, Bool.and_false]
  have hsecond : List.isPrefixOf [13, 10, 13, 10] (10 :: text) = false := rfl
  change firstMatch [13, 10, 13, 10] (13 :: 10 :: text) =
    (firstMatch [13, 10, 13, 10] text).map (· + 2)
  rw [firstMatch, hfirst, if_neg Bool.false_ne_true, firstMatch, hsecond,
    if_neg Bool.false_ne_true, Option.map_map]
  rfl

theorem firstMatch_lineBlock {first : Bytes} {lines : List Bytes} (hfirst : 13 ∉ first)
    (hlines : ∀ line ∈ lines, IsLine line) (rest : Bytes) :
    firstMatch (crlf ++ crlf) (lineBlock first lines ++ (crlf ++ crlf ++ rest)) =
      some (lineBlock first lines).length := by
  induction lines generalizing first with
  | nil =>
      have hblock : lineBlock first [] = first := List.append_nil first
      rw [hblock]
      exact firstMatch_of_notMem hfirst [10, 13, 10] rest
  | cons line lines ih =>
      obtain ⟨⟨hne, hline⟩, hrest⟩ := List.forall_mem_cons.mp hlines
      have hhead : (lineBlock line lines ++ (crlf ++ crlf ++ rest)).head? ≠ some 13 := by
        obtain ⟨b, tail, rfl⟩ := List.exists_cons_of_ne_nil hne
        intro h
        exact hline (Option.some.inj h ▸ List.mem_cons_self)
      have hskip := firstMatch_append_of_notMem hfirst (10 :: crlf)
        (crlf ++ (lineBlock line lines ++ (crlf ++ crlf ++ rest)))
      change firstMatch (crlf ++ crlf) _ = (firstMatch (crlf ++ crlf) _).map _ at hskip
      rw [lineBlock_cons, List.append_assoc, List.append_assoc, hskip,
        firstMatch_crlf_append hhead, ih hline hrest, Option.map_some, Option.map_some]
      simp only [List.length_append, crlf, List.length_cons, List.length_nil]
      congr 1
      omega

theorem find_lineBlock {first : Bytes} {lines : List Bytes} (hfirst : 13 ∉ first)
    (hlines : ∀ line ∈ lines, IsLine line) (rest : Bytes) :
    find (lineBlock first lines ++ (crlf ++ crlf ++ rest)) (crlf ++ crlf) 0 =
      some (lineBlock first lines).length := by
  rw [find, if_neg (Nat.not_lt_zero _), List.drop_zero, firstMatch_lineBlock hfirst hlines rest]
  rfl

end ElioP2P.Library
