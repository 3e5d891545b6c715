import ElioP2P.Library.Decimals
import ElioP2P.Proxy.RequestHandler

/-!
# The grammar of a Range header

The three documented forms of a range spec, as a grammar of plain decimal
numbers, and the headers for which `parse_range_header` follows it.  The parser
leaves both numbers to `std::stoull`, which reads more than digits and less than
every number.
-/

namespace ElioP2P.Proxy

open ElioP2P.Library

def FirstSpec (header spec : Bytes) : Prop :=
  ∃ rest, header = ascii "bytes=" ++ (spec ++ rest) ∧ 44 ∉ spec ∧
    (rest = [] ∨ rest.head? = some 44)

/-- The specs `a-b`, `a-` and `-b` of a satisfiable range, and the range. -/
inductive Denotes (objectSize : Nat) : Bytes → ByteRange → Prop
  | closed {a b : Bytes} (ha : IsDecimal a) (hb : IsDecimal b)
      (hstart : decimalValue a < objectSize) (hle : decimalValue a ≤ decimalValue b) :
      Denotes objectSize (a ++ 45 :: b)
        ⟨decimalValue a, min (decimalValue b) (objectSize - 1), true⟩
  | fromStart {a : Bytes} (ha : IsDecimal a) (hstart : decimalValue a < objectSize) :
      Denotes objectSize (a ++ [45]) ⟨decimalValue a, objectSize - 1, true⟩
  | suffix {b : Bytes} (hb : IsDecimal b) (hpos : 0 < decimalValue b) :
      Denotes objectSize (45 :: b)
        ⟨objectSize - min (decimalValue b) objectSize, objectSize - 1, true⟩

def AsksFor (objectSize : Nat) (header : Bytes) (range : ByteRange) : Prop :=
  ∃ spec, FirstSpec header spec ∧ Denotes objectSize spec range

def ReadsSatisfiable (objectSize : Nat) (front back : Bytes) : Prop :=
  (front = [] → ∃ b, ReadsAs back b ∧ 0 < b) ∧
    (front ≠ [] → ∃ a, ReadsAs front a ∧ a < objectSize ∧
      (back ≠ [] → ∃ b, ReadsAs back b ∧ a ≤ b))

/-- A range spec that `std::stoull` does not misread: its numbers are plain and
an end of more than 64 bits does not matter, or they are not plain and do not
look satisfiable either. -/
structure Unambiguous (objectSize : Nat) (front back : Bytes) : Prop where
  plain : (∀ b ∈ front ++ back, isDigit b = true) →
    decimalValue back < 2 ^ 64 ∨ (front ≠ [] ∧ objectSize ≤ decimalValue front)
  other : (¬ ∀ b ∈ front ++ back, isDigit b = true) → ¬ ReadsSatisfiable objectSize front back

/-! ## Splitting a header -/

theorem parseRangeHeader_of_firstSpec {header front back : Bytes} {objectSize : Nat}
    (hpos : 0 < objectSize) (hspec : FirstSpec header (front ++ 45 :: back)) (hfront : 45 ∉ front) :
    parseRangeHeader header objectSize = parseRangeSpec front back objectSize := by
  obtain ⟨rest, rfl, hcomma, hrest⟩ := hspec
  have hstarts : (ascii "bytes=").isPrefixOf (ascii "bytes=" ++ (front ++ 45 :: back ++ rest)) =
      true := by simp
  have hdrop : (ascii "bytes=" ++ (front ++ 45 :: back ++ rest)).drop 6 =
      front ++ 45 :: back ++ rest := List.drop_left' rfl
  have hspec := (split_separator hcomma hrest).1
  obtain ⟨htake, htail⟩ := split_separator hfront (.inr (List.head?_cons (a := 45) (l := back)))
  have hdash : (front ++ 45 :: back).contains 45 = true := by simp
  rw [parseRangeHeader, hstarts, hdrop]
  simp only [hspec, hdash, htake, htail, List.tail_cons, Nat.ne_of_gt hpos, decide_false,
    Bool.not_true, Bool.or_self, Bool.false_eq_true, if_false]

theorem FirstSpec.unique {header spec spec' : Bytes} (h : FirstSpec header spec)
    (h' : FirstSpec header spec') : spec = spec' := by
  obtain ⟨rest, rfl, hcomma, hrest⟩ := h
  obtain ⟨rest', heq, hcomma', hrest'⟩ := h'
  rw [← (split_separator hcomma hrest).1, List.append_cancel_left heq]
  exact (split_separator hcomma' hrest').1

theorem exists_firstSpec {header : Bytes} {objectSize : Nat}
    (h : (parseRangeHeader header objectSize).valid = true) :
    ∃ front back, FirstSpec header (front ++ 45 :: back) ∧ 45 ∉ front := by
  unfold parseRangeHeader at h
  split at h
  · cases h
  · next hguard =>
      simp only at h
      split at h
      · cases h
      · next hdash =>
          simp only [Bool.or_eq_true, Bool.not_eq_true', not_or, Bool.not_eq_false,
            List.isPrefixOf_iff_prefix] at hguard hdash
          obtain ⟨text, rfl⟩ := hguard.2
          have hdrop : (ascii "bytes=" ++ text).drop 6 = text := List.drop_left' rfl
          rw [hdrop, List.contains_iff_mem] at hdash
          have hsplit : text.takeWhile (· != 44) ++ text.dropWhile (· != 44) = text :=
            List.takeWhile_append_dropWhile
          obtain ⟨front, back, hspec, hfront⟩ := List.eq_append_cons_of_mem hdash
          refine ⟨front, back, ⟨text.dropWhile (· != 44), ?_, ?_, ?_⟩, hfront⟩
          · rw [← hspec, hsplit]
          · rw [← hspec]
            intro hmem
            simpa using List.mem_takeWhile_imp hmem
          · cases hrest : text.dropWhile (· != 44) with
            | nil => exact .inl rfl
            | cons b rest =>
                have hstop : (b != 44) = false :=
                  head?_dropWhile b (by rw [hrest, List.head?_cons, Option.mem_some_iff])
                rw [bne_eq_false_iff_eq] at hstop
                exact .inr (congrArg some hstop)

/-! ## One range spec -/

theorem denotes_iff {front back : Bytes} {objectSize : Nat} {range : ByteRange}
    (hfront : 45 ∉ front) :
    Denotes objectSize (front ++ 45 :: back) range ↔
      (front = [] ∧ IsDecimal back ∧ 0 < decimalValue back ∧
        range = ⟨objectSize - min (decimalValue back) objectSize, objectSize - 1, true⟩) ∨
      (IsDecimal front ∧ decimalValue front < objectSize ∧
        ((back = [] ∧ range = ⟨decimalValue front, objectSize - 1, true⟩) ∨
          (IsDecimal back ∧ decimalValue front ≤ decimalValue back ∧
            range = ⟨decimalValue front, min (decimalValue back) (objectSize - 1), true⟩))) := by
  have hdash : ∀ {a : Bytes}, IsDecimal a → 45 ∉ a := by
    intro a ha hmem
    cases ha.2 45 hmem
  constructor
  · intro h
    generalize hspec : front ++ 45 :: back = spec at h
    cases h with
    | closed ha hb hstart hle =>
        obtain ⟨rfl, rfl⟩ := append_first_inj hfront (hdash ha) hspec
        exact .inr ⟨ha, hstart, .inr ⟨hb, hle, rfl⟩⟩
    | fromStart ha hstart =>
        obtain ⟨rfl, rfl⟩ := append_first_inj hfront (hdash ha) hspec
        exact .inr ⟨ha, hstart, .inl ⟨rfl, rfl⟩⟩
    | suffix hb hpos =>
        obtain ⟨rfl, rfl⟩ := append_first_inj hfront List.not_mem_nil hspec
        exact .inl ⟨rfl, hb, hpos, rfl⟩
  · rintro (⟨rfl, hb, hpos, rfl⟩ | ⟨ha, hstart, ⟨rfl, rfl⟩ | ⟨hb, hle, rfl⟩⟩)
    · exact .suffix hb hpos
    · exact .fromStart ha hstart
    · exact .closed ha hb hstart hle

/-- The parser accepts what `std::stoull` reads as a satisfiable range. -/
theorem parseRangeSpec_valid_iff {front back : Bytes} {objectSize : Nat} (hpos : 0 < objectSize) :
    (parseRangeSpec front back objectSize).valid = true ↔
      ReadsSatisfiable objectSize front back := by
  unfold parseRangeSpec ReadsSatisfiable
  simp only [← stoull_eq_some_iff]
  by_cases hfront : front = []
  · subst hfront
    cases hback : stoull back with
    | none => simp
    | some b =>
        by_cases hb : b = 0
        · simp [hb]
        · simp [hb, Nat.pos_of_ne_zero hb]
  · have hisEmpty : front.isEmpty = false := List.isEmpty_eq_false_iff.mpr hfront
    cases hread : stoull front with
    | none => simp [hisEmpty, hfront]
    | some a =>
        by_cases hnil : back = []
        · simp [hisEmpty, hfront, hnil]
          omega
        · have hbackEmpty : back.isEmpty = false := List.isEmpty_eq_false_iff.mpr hnil
          cases hback : stoull back with
          | none => simp [hisEmpty, hfront, hnil]
          | some b =>
              simp [hisEmpty, hfront, hnil]
              omega

theorem readsSatisfiable_digits {front back : Bytes} {objectSize : Nat}
    (hdigits : ∀ b ∈ front ++ back, isDigit b = true) (hsize : objectSize < 2 ^ 64) :
    ReadsSatisfiable objectSize front back ↔
      (front = [] ∧ back ≠ [] ∧ 0 < decimalValue back ∧ decimalValue back < 2 ^ 64) ∨
      (front ≠ [] ∧ decimalValue front < objectSize ∧
        (back ≠ [] → decimalValue front ≤ decimalValue back ∧ decimalValue back < 2 ^ 64)) := by
  have hreadFront : ∀ n, ReadsAs front n ↔
      front ≠ [] ∧ decimalValue front < 2 ^ 64 ∧ n = decimalValue front := by
    intro n
    rw [← stoull_eq_some_iff]
    exact stoull_digits fun b hb => hdigits b (List.mem_append_left back hb)
  have hreadBack : ∀ n, ReadsAs back n ↔
      back ≠ [] ∧ decimalValue back < 2 ^ 64 ∧ n = decimalValue back := by
    intro n
    rw [← stoull_eq_some_iff]
    exact stoull_digits fun b hb => hdigits b (List.mem_append_right front hb)
  unfold ReadsSatisfiable
  simp only [hreadFront, hreadBack]
  by_cases hfront : front = []
  · simp only [hfront, forall_const, ne_eq, not_true_eq_false, false_implies, and_true,
      true_and, false_and, or_false]
    constructor
    · rintro ⟨b, ⟨hnil, hlt, rfl⟩, hpos⟩
      exact ⟨hnil, hpos, hlt⟩
    · rintro ⟨hnil, hpos, hlt⟩
      exact ⟨_, ⟨hnil, hlt, rfl⟩, hpos⟩
  · simp only [hfront, false_implies, ne_eq, not_false_eq_true, forall_const, true_and,
      false_and, false_or]
    constructor
    · rintro ⟨a, ⟨-, rfl⟩, hstart, hend⟩
      refine ⟨hstart, fun hnil => ?_⟩
      obtain ⟨b, ⟨-, hlt, rfl⟩, hle⟩ := hend hnil
      exact ⟨hle, hlt⟩
    · rintro ⟨hstart, hend⟩
      refine ⟨_, ⟨by omega, rfl⟩, hstart, fun hnil => ?_⟩
      exact ⟨_, ⟨hnil, (hend hnil).2, rfl⟩, (hend hnil).1⟩

theorem parseRangeSpec_of_denotes {front back : Bytes} {objectSize : Nat} {range : ByteRange}
    (hfront : 45 ∉ front) (hsize : objectSize < 2 ^ 64) (hlt : decimalValue back < 2 ^ 64)
    (h : Denotes objectSize (front ++ 45 :: back) range) :
    parseRangeSpec front back objectSize = range := by
  have hread : ∀ {text : Bytes}, IsDecimal text → decimalValue text < 2 ^ 64 →
      stoull text = some (decimalValue text) := by
    intro text htext hfits
    exact (stoull_digits htext.2).mpr ⟨htext.1, hfits, rfl⟩
  rcases (denotes_iff hfront).mp h with
    ⟨rfl, hb, hpos, rfl⟩ | ⟨ha, hstart, ⟨rfl, rfl⟩ | ⟨hb, hle, rfl⟩⟩
  · have hne : decimalValue back ≠ 0 := by omega
    simp [parseRangeSpec, hread hb hlt, hne]
  · have hfits : decimalValue front < 2 ^ 64 := by omega
    simp [parseRangeSpec, hread ha hfits, ha.1]
    omega
  · have hfits : decimalValue front < 2 ^ 64 := by omega
    simp [parseRangeSpec, hread ha hfits, hread hb hlt, ha.1, hb.1]
    omega

def FollowsGrammar (denotes : ByteRange → Prop) (parsed : ByteRange) : Prop :=
  (parsed.valid = true ↔ ∃ range, denotes range) ∧ ∀ range, denotes range → parsed = range

theorem Denotes.dash_mem {objectSize : Nat} {spec : Bytes} {range : ByteRange}
    (h : Denotes objectSize spec range) : 45 ∈ spec := by
  cases h <;> simp

theorem Denotes.valid {objectSize : Nat} {spec : Bytes} {range : ByteRange}
    (h : Denotes objectSize spec range) : range.valid = true := by
  cases h <;> rfl

theorem followsGrammar_of_plain {front back : Bytes} {objectSize : Nat} (hfront : 45 ∉ front)
    (hpos : 0 < objectSize) (hsize : objectSize < 2 ^ 64)
    (hdigits : ∀ b ∈ front ++ back, isDigit b = true) (hlt : decimalValue back < 2 ^ 64) :
    FollowsGrammar (Denotes objectSize (front ++ 45 :: back))
      (parseRangeSpec front back objectSize) := by
  have hparse : ∀ range, Denotes objectSize (front ++ 45 :: back) range →
      parseRangeSpec front back objectSize = range :=
    fun _ h => parseRangeSpec_of_denotes hfront hsize hlt h
  have hdecimal : ∀ {text : Bytes}, text ≠ [] → (∀ b ∈ text, b ∈ front ++ back) →
      IsDecimal text := fun hnil hmem => ⟨hnil, fun b hb => hdigits b (hmem b hb)⟩
  refine ⟨⟨fun hvalid => ?_, fun ⟨range, h⟩ => ?_⟩, hparse⟩
  · rw [parseRangeSpec_valid_iff hpos, readsSatisfiable_digits hdigits hsize] at hvalid
    rcases hvalid with ⟨rfl, hback, hbpos, -⟩ | ⟨hne, hstart, hend⟩
    · exact ⟨_, .suffix (hdecimal hback (by simp)) hbpos⟩
    · have ha : IsDecimal front := hdecimal hne (by simp +contextual)
      by_cases hback : back = []
      · subst hback
        exact ⟨_, .fromStart ha hstart⟩
      · exact ⟨_, .closed ha (hdecimal hback (by simp +contextual)) hstart (hend hback).1⟩
  · rw [hparse range h]
    exact h.valid

/-- The end of a plain spec does not fit into 64 bits: the parser rejects it, and
the grammar does if the start lies behind the object. -/
theorem followsGrammar_of_long {front back : Bytes} {objectSize : Nat} (hfront : 45 ∉ front)
    (hpos : 0 < objectSize) (hsize : objectSize < 2 ^ 64)
    (hdigits : ∀ b ∈ front ++ back, isDigit b = true) (hlong : 2 ^ 64 ≤ decimalValue back) :
    FollowsGrammar (Denotes objectSize (front ++ 45 :: back))
        (parseRangeSpec front back objectSize) ↔
      front ≠ [] ∧ objectSize ≤ decimalValue front := by
  have hback : IsDecimal back := by
    refine ⟨?_, fun b hb => hdigits b (List.mem_append_right front hb)⟩
    rintro rfl
    simp [decimalValue] at hlong
  have hrejected : ¬ (parseRangeSpec front back objectSize).valid = true := by
    rw [parseRangeSpec_valid_iff hpos, readsSatisfiable_digits hdigits hsize]
    rintro (⟨-, -, -, hlt⟩ | ⟨-, -, hend⟩)
    · omega
    · have hlt := (hend hback.1).2
      omega
  constructor
  · rintro ⟨hvalid, -⟩
    have hne : front ≠ [] := by
      rintro rfl
      exact hrejected (hvalid.mpr ⟨_, .suffix hback (by omega)⟩)
    refine ⟨hne, ?_⟩
    by_contra hstart
    have ha : IsDecimal front := ⟨hne, fun b hb => hdigits b (List.mem_append_left back hb)⟩
    exact hrejected (hvalid.mpr ⟨_, .closed ha hback (by omega) (by omega)⟩)
  · rintro ⟨hne, hstart⟩
    have hnone : ∀ range, ¬ Denotes objectSize (front ++ 45 :: back) range := by
      intro range h
      rcases (denotes_iff hfront).mp h with ⟨hnil, -⟩ | ⟨-, hlt, -⟩
      · exact hne hnil
      · omega
    exact ⟨⟨fun h => absurd h hrejected, fun ⟨range, h⟩ => absurd h (hnone range)⟩,
      fun range h => absurd h (hnone range)⟩

/-- A spec with more than digits has no place in the grammar. -/
theorem followsGrammar_of_other {front back : Bytes} {objectSize : Nat} (hfront : 45 ∉ front)
    (hpos : 0 < objectSize) (hother : ¬ ∀ b ∈ front ++ back, isDigit b = true) :
    FollowsGrammar (Denotes objectSize (front ++ 45 :: back))
        (parseRangeSpec front back objectSize) ↔
      ¬ ReadsSatisfiable objectSize front back := by
  have hnone : ∀ range, ¬ Denotes objectSize (front ++ 45 :: back) range := by
    intro range h
    apply hother
    intro b hb
    rcases (denotes_iff hfront).mp h with
      ⟨rfl, hback, -⟩ | ⟨ha, -, ⟨rfl, -⟩ | ⟨hback, -⟩⟩
    · exact hback.2 b hb
    · rw [List.append_nil] at hb
      exact ha.2 b hb
    · exact (List.mem_append.mp hb).elim (ha.2 b) (hback.2 b)
  rw [← parseRangeSpec_valid_iff hpos]
  constructor
  · rintro ⟨hvalid, -⟩ h
    obtain ⟨range, hdenotes⟩ := hvalid.mp h
    exact hnone range hdenotes
  · intro h
    exact ⟨⟨fun hvalid => absurd hvalid h, fun ⟨range, hd⟩ => absurd hd (hnone range)⟩,
      fun range hd => absurd hd (hnone range)⟩

theorem followsGrammar_spec_iff {front back : Bytes} {objectSize : Nat} (hfront : 45 ∉ front)
    (hpos : 0 < objectSize) (hsize : objectSize < 2 ^ 64) :
    FollowsGrammar (Denotes objectSize (front ++ 45 :: back))
        (parseRangeSpec front back objectSize) ↔
      Unambiguous objectSize front back := by
  by_cases hdigits : ∀ b ∈ front ++ back, isDigit b = true
  · by_cases hlt : decimalValue back < 2 ^ 64
    · exact ⟨fun _ => ⟨fun _ => .inl hlt, fun h => absurd hdigits h⟩,
        fun _ => followsGrammar_of_plain hfront hpos hsize hdigits hlt⟩
    · rw [followsGrammar_of_long hfront hpos hsize hdigits (by omega)]
      exact ⟨fun h => ⟨fun _ => .inr h, fun hother => absurd hdigits hother⟩,
        fun h => (h.plain hdigits).resolve_left hlt⟩
  · rw [followsGrammar_of_other hfront hpos hdigits]
    exact ⟨fun h => ⟨fun hplain => absurd hplain hdigits, fun _ => h⟩,
      fun h => h.other hdigits⟩

/-! ## The header -/

/-- The parser follows the grammar exactly for the headers whose first spec
`std::stoull` does not misread. -/
theorem parseRangeHeader_follows_iff {header : Bytes} {objectSize : Nat} (hpos : 0 < objectSize)
    (hsize : objectSize < 2 ^ 64) :
    FollowsGrammar (AsksFor objectSize header) (parseRangeHeader header objectSize) ↔
      ∀ front back, FirstSpec header (front ++ 45 :: back) → 45 ∉ front →
        Unambiguous objectSize front back := by
  by_cases hspec : ∃ front back, FirstSpec header (front ++ 45 :: back) ∧ 45 ∉ front
  · obtain ⟨front, back, hfirst, hfront⟩ := hspec
    have hasks : AsksFor objectSize header = Denotes objectSize (front ++ 45 :: back) := by
      funext range
      refine propext ⟨?_, fun h => ⟨_, hfirst, h⟩⟩
      rintro ⟨spec, hspec, h⟩
      rwa [hfirst.unique hspec]
    rw [hasks, parseRangeHeader_of_firstSpec hpos hfirst hfront,
      followsGrammar_spec_iff hfront hpos hsize]
    constructor
    · intro h front' back' hfirst' hfront'
      obtain ⟨rfl, rfl⟩ := append_first_inj hfront hfront' (hfirst.unique hfirst')
      exact h
    · intro h
      exact h front back hfirst hfront
  · -- Neither the grammar nor the parser accepts a spec without a dash.
    have hnone : ∀ range, ¬ AsksFor objectSize header range := by
      rintro range ⟨spec, hfirst, hdenotes⟩
      obtain ⟨front, back, rfl, hfront⟩ := List.eq_append_cons_of_mem hdenotes.dash_mem
      exact hspec ⟨front, back, hfirst, hfront⟩
    have hrejected : ¬ (parseRangeHeader header objectSize).valid = true :=
      fun h => hspec (exists_firstSpec h)
    refine ⟨fun _ front back hfirst hfront => absurd ⟨front, back, hfirst, hfront⟩ hspec,
      fun _ => ⟨⟨fun h => absurd h hrejected, fun ⟨range, h⟩ => absurd h (hnone range)⟩,
        fun range h => absurd h (hnone range)⟩⟩

theorem parseRangeHeader_follows_inner :
    FollowsGrammar (AsksFor 5 (ascii "bytes=1-3,4-")) (parseRangeHeader (ascii "bytes=1-3,4-") 5) :=
  (parseRangeHeader_follows_iff (by decide) (by decide)).mpr fun front back hfirst hfront => by
    have hspec : FirstSpec (ascii "bytes=1-3,4-") (ascii "1" ++ 45 :: ascii "3") :=
      ⟨ascii ",4-", by decide, by decide, by decide⟩
    obtain ⟨rfl, rfl⟩ := append_first_inj hfront (by decide) (hfirst.unique hspec)
    have hdigits : (ascii "1" ++ ascii "3").all isDigit = true := by decide
    exact ⟨fun _ => .inl (by decide), fun hother => absurd (List.all_eq_true.mp hdigits) hother⟩

/-- A sign is read over: `bytes=0-+1` has no place in the grammar and is accepted. -/
theorem parseRangeHeader_signed :
    ¬ FollowsGrammar (AsksFor 5 (ascii "bytes=0-+1"))
    (parseRangeHeader (ascii "bytes=0-+1") 5) := by
  rintro ⟨hvalid, -⟩
  have hspec : FirstSpec (ascii "bytes=0-+1") (ascii "0" ++ 45 :: ascii "+1") :=
    ⟨[], by decide, by decide, by decide⟩
  obtain ⟨range, spec, hfirst, hdenotes⟩ := hvalid.mp (by decide)
  rw [hfirst.unique hspec, denotes_iff (by decide)] at hdenotes
  rcases hdenotes with ⟨hnil, -⟩ | ⟨-, -, ⟨hnil, -⟩ | ⟨hback, -⟩⟩
  · exact absurd hnil (by decide)
  · exact absurd hnil (by decide)
  · exact absurd (hback.2 43 (by decide)) (by decide)

end ElioP2P.Proxy
