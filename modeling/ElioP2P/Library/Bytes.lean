import Mathlib.Algebra.Ring.Nat
import Mathlib.Data.List.Basic
import Mathlib.Data.List.TakeWhile

/-!
# Byte strings

A `std::string` and a `std::vector<uint8_t>` are both finite byte sequences.
This module fixes that representation and gives the few `<cctype>`, `<string>`
and stream-extraction operations in the "C" locale that text-based formats are
built from.
-/

namespace ElioP2P.Library

/-- A byte sequence of any length, with no encoding attached to it. -/
abbrev Bytes := List UInt8

/-- The order of `std::string` is lexicographic. -/
instance lawfulOrderLT_bytes : Std.LawfulOrderLT Bytes := inferInstance

def ascii (s : String) : Bytes := s.toUTF8.data.toList

def isSpace (b : UInt8) : Bool := b == 32 || (9 ≤ b && b ≤ 13)

def isDigit (b : UInt8) : Bool := 48 ≤ b && b ≤ 57

def isAlnum (b : UInt8) : Bool :=
  isDigit b || (65 ≤ b && b ≤ 90) || (97 ≤ b && b ≤ 122)

def toLower (b : UInt8) : UInt8 := if 65 ≤ b && b ≤ 90 then b + 32 else b

/-- The decimal text `std::to_string` and `operator<<` print for an unsigned
integer. -/
def decimal (n : Nat) : Bytes :=
  (Nat.toDigits 10 n).map fun c => UInt8.ofNat c.toNat

/-- The text `operator<<` prints for an unsigned integer after `std::hex`. -/
def hexadecimal (n : Nat) : Bytes :=
  (Nat.toDigits 16 n).map fun c => UInt8.ofNat c.toNat

def decimalValue (ds : Bytes) : Nat :=
  ds.foldl (fun acc d => 10 * acc + (d.toNat - 48)) 0

/-- An optional sign and the digits after it, as `strtoull` reads them once
leading white space is gone.  A minus sign negates modulo `2^64`. -/
def unsignedPrefix (text : Bytes) : Option (Nat × Bytes) :=
  let negative := text.head? == some 45
  let body := if negative || text.head? == some 43 then text.tail else text
  let digits := body.takeWhile isDigit
  let value := decimalValue digits
  if digits.isEmpty || 2 ^ 64 ≤ value then none
  else some (if negative then (2 ^ 64 - value) % 2 ^ 64 else value,
    body.dropWhile isDigit)

/-- `std::stoull` in base ten; `none` is `std::invalid_argument` or
`std::out_of_range`. -/
def stoull (text : Bytes) : Option Nat :=
  (unsignedPrefix (text.dropWhile isSpace)).map Prod.fst

/-- `stream >> n` for an unsigned 64-bit `n`: the value read and what is left
in the stream, or `none` when the extraction sets `failbit`. -/
def extractUInt64 (text : Bytes) : Option (Nat × Bytes) :=
  unsignedPrefix (text.dropWhile isSpace)

/-- What `stream >> n` leaves in an `n` that was zero, whether or not it sets
`failbit`: too many digits give the largest number. -/
def storedUInt64 (text : Bytes) : Nat :=
  match extractUInt64 text with
  | some (value, _) => value
  | none =>
      let body := text.dropWhile isSpace
      let digits := if body.head? == some 45 || body.head? == some 43 then body.tail else body
      if (digits.takeWhile isDigit).isEmpty then 0 else 2 ^ 64 - 1

/-- The strings that repeated `stream >> word` reads until it fails. -/
def extractWords (text : Bytes) : List Bytes :=
  (text.splitOnP isSpace).filter fun word => !word.isEmpty

/-! ## Printing and reading back decimals -/

private theorem digitByte_toNat {c : Char} (hc : c.isDigit = true) :
    (UInt8.ofNat c.toNat).toNat = c.toNat ∧ 48 ≤ c.toNat ∧ c.toNat ≤ 57 := by
  simp only [Char.isDigit, Bool.and_eq_true, decide_eq_true_eq, ge_iff_le] at hc
  have hlo : 48 ≤ c.toNat := by simpa [UInt32.le_iff_toNat_le] using hc.1
  have hhi : c.toNat ≤ 57 := by simpa [UInt32.le_iff_toNat_le] using hc.2
  refine ⟨?_, hlo, hhi⟩
  rw [UInt8.toNat_ofNat']
  omega

theorem isDigit_of_mem_decimal {n : Nat} {b : UInt8} (hb : b ∈ decimal n) :
    isDigit b = true := by
  simp only [decimal, List.mem_map] at hb
  obtain ⟨c, hc, rfl⟩ := hb
  obtain ⟨heq, hlo, hhi⟩ :=
    digitByte_toNat (Nat.isDigit_of_mem_toDigits (by decide) (by decide) hc)
  simp only [isDigit, Bool.and_eq_true, decide_eq_true_eq, UInt8.le_iff_toNat_le, heq]
  exact ⟨hlo, hhi⟩

theorem notMem_decimal {b : UInt8} (hb : isDigit b = false) (n : Nat) : b ∉ decimal n := by
  intro hmem
  rw [isDigit_of_mem_decimal hmem] at hb
  cases hb

theorem decimal_ne_nil (n : Nat) : decimal n ≠ [] := by
  simp [decimal, Nat.toDigits_ne_nil]

theorem decimalValue_decimal (n : Nat) : decimalValue (decimal n) = n := by
  have hfold : ∀ (cs : List Char) (acc : Nat), (∀ c ∈ cs, c.isDigit = true) →
      (cs.map fun c => UInt8.ofNat c.toNat).foldl
        (fun acc d => 10 * acc + (d.toNat - 48)) acc = Nat.ofDigitChars 10 cs acc := by
    intro cs
    induction cs with
    | nil => intro acc _; rfl
    | cons c cs ih =>
        intro acc hcs
        have hc := (digitByte_toNat (hcs c (by simp))).1
        simp only [List.map_cons, List.foldl_cons, hc, Nat.ofDigitChars_cons]
        exact ih _ fun d hd => hcs d (by simp [hd])
  unfold decimalValue decimal
  rw [hfold _ 0 fun c hc => Nat.isDigit_of_mem_toDigits (by decide) (by decide) hc]
  exact Nat.ofDigitChars_ten_toDigits

theorem decimal_injective {m n : Nat} (h : decimal m = decimal n) : m = n := by
  rw [← decimalValue_decimal m, ← decimalValue_decimal n, h]

theorem unsignedPrefix_decimal {n : Nat} (hn : n < 2 ^ 64) {rest : Bytes}
    (hrest : ∀ b ∈ rest.head?, isDigit b = false) :
    unsignedPrefix (decimal n ++ rest) = some (n, rest) := by
  have hdigits : ∀ b ∈ decimal n, isDigit b = true := fun b => isDigit_of_mem_decimal
  have htake : rest.takeWhile isDigit = [] := by
    cases rest with
    | nil => rfl
    | cons b rest => simp [hrest b (by simp)]
  have hdrop : rest.dropWhile isDigit = rest := by
    cases rest with
    | nil => rfl
    | cons b rest => simp [hrest b (by simp)]
  obtain ⟨d, ds, hd⟩ := List.exists_cons_of_ne_nil (decimal_ne_nil n)
  have hfirst : isDigit d = true := hdigits d (by simp [hd])
  have hhead : (decimal n ++ rest).head? = some d := by simp [hd]
  have hminus : ((some d : Option UInt8) == some 45) = false := by
    rw [beq_eq_false_iff_ne]
    rintro h
    cases h
    simp [isDigit] at hfirst
  have hplus : ((some d : Option UInt8) == some 43) = false := by
    rw [beq_eq_false_iff_ne]
    rintro h
    cases h
    simp [isDigit] at hfirst
  unfold unsignedPrefix
  simp only [hhead, hminus, hplus, Bool.or_self, Bool.false_eq_true, if_false,
    List.takeWhile_append_of_pos hdigits, List.dropWhile_append_of_pos hdigits,
    htake, hdrop, List.append_nil, decimalValue_decimal]
  rw [if_neg]
  have hlt : ¬ 2 ^ 64 ≤ n := Nat.not_le.mpr hn
  simp only [hd, List.isEmpty_cons, Bool.false_or, decide_eq_true_eq]
  exact hlt

/-! ## Hexadecimal text -/

private def hexadecimalDigit (d : Nat) : UInt8 := UInt8.ofNat (Nat.digitChar d).toNat

private theorem hexadecimalDigit_injective {d e : Nat} (hd : d < 16) (he : e < 16)
    (h : hexadecimalDigit d = hexadecimalDigit e) : d = e := by
  have hall : ∀ d e : Fin 16, hexadecimalDigit d = hexadecimalDigit e → d = e := by decide
  exact congrArg Fin.val (hall ⟨d, hd⟩ ⟨e, he⟩ h)

private theorem hexadecimalDigit_ne_colon {d : Nat} (hd : d < 16) : hexadecimalDigit d ≠ 58 := by
  have hall : ∀ d : Fin 16, hexadecimalDigit d ≠ 58 := by decide
  exact hall ⟨d, hd⟩

private theorem hexadecimal_of_lt {n : Nat} (hn : n < 16) :
    hexadecimal n = [hexadecimalDigit n] := by
  rw [hexadecimal, Nat.toDigits_of_lt_base hn]
  rfl

private theorem hexadecimal_of_le {n : Nat} (hn : 16 ≤ n) :
    hexadecimal n = hexadecimal (n / 16) ++ [hexadecimalDigit (n % 16)] := by
  rw [hexadecimal, Nat.toDigits_of_base_le (by decide) hn, List.map_append]
  rfl

theorem hexadecimal_ne_nil (n : Nat) : hexadecimal n ≠ [] := by
  simp [hexadecimal, Nat.toDigits_ne_nil]

theorem hexadecimal_injective {m n : Nat} (h : hexadecimal m = hexadecimal n) : m = n := by
  induction m using Nat.strongRecOn generalizing n with
  | ind m ih =>
      rcases Nat.lt_or_ge m 16 with hm | hm
      · rw [hexadecimal_of_lt hm] at h
        rcases Nat.lt_or_ge n 16 with hn | hn
        · rw [hexadecimal_of_lt hn] at h
          exact hexadecimalDigit_injective hm hn (List.singleton_inj.mp h)
        · rw [hexadecimal_of_le hn] at h
          have hlength := congrArg List.length h
          have hpos := List.length_pos_of_ne_nil (hexadecimal_ne_nil (n / 16))
          rw [List.length_append, List.length_singleton, List.length_singleton] at hlength
          omega
      · rw [hexadecimal_of_le hm] at h
        rcases Nat.lt_or_ge n 16 with hn | hn
        · rw [hexadecimal_of_lt hn] at h
          have hlength := congrArg List.length h
          have hpos := List.length_pos_of_ne_nil (hexadecimal_ne_nil (m / 16))
          rw [List.length_append, List.length_singleton, List.length_singleton] at hlength
          omega
        · rw [hexadecimal_of_le hn] at h
          obtain ⟨hfront, hlast⟩ := List.append_inj' h rfl
          have hquot := ih (m / 16) (by omega) hfront
          have hrem := hexadecimalDigit_injective (Nat.mod_lt m (by decide))
            (Nat.mod_lt n (by decide))
            (List.singleton_inj.mp hlast)
          omega

theorem colon_notMem_hexadecimal (n : Nat) : (58 : UInt8) ∉ hexadecimal n := by
  induction n using Nat.strongRecOn with
  | ind n ih =>
      rcases Nat.lt_or_ge n 16 with hn | hn
      · rw [hexadecimal_of_lt hn, List.mem_singleton]
        exact (hexadecimalDigit_ne_colon hn).symm
      · rw [hexadecimal_of_le hn, List.mem_append, List.mem_singleton, not_or]
        exact ⟨ih (n / 16) (by omega), (hexadecimalDigit_ne_colon (Nat.mod_lt n (by decide))).symm⟩

theorem append_separator_inj {sep : UInt8} {a a' b b' : Bytes} (hb : sep ∉ b) (hb' : sep ∉ b')
    (h : a ++ sep :: b = a' ++ sep :: b') : a = a' ∧ b = b' := by
  rcases List.append_eq_append_iff.mp h with ⟨c, rfl, hc⟩ | ⟨c, rfl, hc⟩
  · cases c with
    | nil =>
        rw [List.nil_append] at hc
        exact ⟨(List.append_nil a).symm, (List.cons_inj_right sep).mp hc⟩
    | cons x c =>
        rw [List.cons_append, List.cons.injEq] at hc
        exact absurd (hc.2 ▸ List.mem_append_right c List.mem_cons_self) hb
  · cases c with
    | nil =>
        rw [List.nil_append] at hc
        exact ⟨List.append_nil a', ((List.cons_inj_right sep).mp hc).symm⟩
    | cons x c =>
        rw [List.cons_append, List.cons.injEq] at hc
        exact absurd (hc.2 ▸ List.mem_append_right c List.mem_cons_self) hb'

/-! ## The first separator -/

theorem head?_dropWhile {p : UInt8 → Bool} {text : Bytes} :
    ∀ b ∈ (text.dropWhile p).head?, p b = false := by
  intro b hb
  have hhead := List.head?_dropWhile_not p text
  rw [Option.mem_def.mp hb] at hhead
  exact hhead

theorem takeWhile_append_stop {p : UInt8 → Bool} {front rest : Bytes}
    (hfront : ∀ b ∈ front, p b = true) (hrest : ∀ b ∈ rest.head?, p b = false) :
    (front ++ rest).takeWhile p = front ∧ (front ++ rest).dropWhile p = rest := by
  rw [List.takeWhile_append_of_pos hfront, List.dropWhile_append_of_pos hfront]
  cases rest with
  | nil => simp
  | cons b rest => simp [hrest b (by simp)]

theorem split_separator {sep : UInt8} {front rest : Bytes} (hfront : sep ∉ front)
    (hrest : rest = [] ∨ rest.head? = some sep) :
    (front ++ rest).takeWhile (· != sep) = front ∧ (front ++ rest).dropWhile (· != sep) = rest := by
  refine takeWhile_append_stop ?_ ?_
  · intro b hb
    rw [bne_iff_ne]
    rintro rfl
    exact hfront hb
  · intro b hb
    rcases hrest with rfl | hhead
    · cases hb
    · rw [hhead, Option.mem_some_iff] at hb
      rw [hb, bne_self_eq_false]

theorem append_first_inj {sep : UInt8} {a a' b b' : Bytes} (ha : sep ∉ a) (ha' : sep ∉ a')
    (h : a ++ sep :: b = a' ++ sep :: b') : a = a' ∧ b = b' := by
  obtain ⟨htake, hdrop⟩ := split_separator ha (.inr (List.head?_cons (a := sep) (l := b)))
  obtain ⟨htake', hdrop'⟩ := split_separator ha' (.inr (List.head?_cons (a := sep) (l := b')))
  rw [h] at htake hdrop
  exact ⟨htake.symm.trans htake', (List.cons.inj (hdrop.symm.trans hdrop')).2⟩

/-- The pieces between separators hold none. -/
theorem notMem_of_mem_splitOn {sep : UInt8} {text piece : Bytes} (h : piece ∈ text.splitOn sep) :
    sep ∉ piece := by
  induction text generalizing piece with
  | nil =>
      rw [List.splitOn_nil, List.mem_singleton] at h
      rw [h]
      exact List.not_mem_nil
  | cons b text ih =>
      rw [List.splitOn_cons_eq_if_modifyHead] at h
      split at h
      · rcases List.mem_cons.mp h with rfl | h
        · exact List.not_mem_nil
        · exact ih h
      · rename_i hb
        have hne : b ≠ sep := by simpa using hb
        obtain ⟨first, rest, hsplit⟩ :=
          List.exists_cons_of_ne_nil (List.splitOn_ne_nil sep text)
        rw [hsplit, List.modifyHead_cons, List.mem_cons] at h
        rw [hsplit] at ih
        rcases h with rfl | h
        · rw [List.mem_cons, not_or]
          exact ⟨hne.symm, ih List.mem_cons_self⟩
        · exact ih (List.mem_cons_of_mem first h)

theorem length_le_of_mem_splitOn {sep : UInt8} {text piece : Bytes} (h : piece ∈ text.splitOn sep) :
    piece.length ≤ text.length := by
  induction text generalizing piece with
  | nil =>
      rw [List.splitOn_nil, List.mem_singleton] at h
      rw [h]
  | cons b text ih =>
      rw [List.splitOn_cons_eq_if_modifyHead] at h
      split at h
      · rcases List.mem_cons.mp h with rfl | h
        · exact Nat.zero_le _
        · exact Nat.le_succ_of_le (ih h)
      · obtain ⟨first, rest, hsplit⟩ := List.exists_cons_of_ne_nil (List.splitOn_ne_nil sep text)
        rw [hsplit, List.modifyHead_cons, List.mem_cons] at h
        rw [hsplit] at ih
        rcases h with rfl | h
        · exact Nat.succ_le_succ (ih List.mem_cons_self)
        · exact Nat.le_succ_of_le (ih (List.mem_cons_of_mem first h))

/-! ## Words of a line -/

theorem extractWords_word_space {word rest : Bytes} {sep : UInt8}
    (hword : ∀ b ∈ word, isSpace b = false) (hne : word ≠ [])
    (hsep : isSpace sep = true) :
    extractWords (word ++ sep :: rest) = word :: extractWords rest := by
  unfold extractWords
  rw [List.splitOnP_append_cons_of_forall_mem hword _ hsep]
  simp [hne]

theorem extractWords_word {word : Bytes} (hword : ∀ b ∈ word, isSpace b = false)
    (hne : word ≠ []) : extractWords word = [word] := by
  unfold extractWords
  rw [List.splitOnP_eq_singleton hword]
  simp [hne]

theorem extractWords_space {sep : UInt8} {rest : Bytes} (hsep : isSpace sep = true) :
    extractWords (sep :: rest) = extractWords rest := by
  unfold extractWords
  rw [List.splitOnP_cons_eq_if_modifyHead]
  simp [hsep]

theorem extractWords_append {front rest : Bytes} {sep : UInt8} (hsep : isSpace sep = true) :
    extractWords (front ++ sep :: rest) = extractWords front ++ extractWords rest := by
  unfold extractWords
  rw [List.splitOnP_append_cons front rest hsep, List.filter_append]

/-! ## Searching -/

def firstMatch (pattern : Bytes) : Bytes → Option Nat
  | [] => if pattern.isEmpty then some 0 else none
  | b :: rest =>
      if pattern.isPrefixOf (b :: rest) then some 0
      else (firstMatch pattern rest).map (· + 1)

/-- `text.find(pattern, start)` -/
def find (text pattern : Bytes) (start : Nat) : Option Nat :=
  if text.length < start then none
  else (firstMatch pattern (text.drop start)).map (· + start)

/-- `text.substr(start, count)` for a start within the text. -/
def substr (text : Bytes) (start count : Nat) : Bytes := (text.drop start).take count

theorem firstMatch_append (pattern rest : Bytes) :
    firstMatch pattern (pattern ++ rest) = some 0 := by
  cases pattern with
  | nil =>
      cases rest with
      | nil => rfl
      | cons b rest => simp [firstMatch]
  | cons b pattern => simp [firstMatch]

theorem prefix_of_firstMatch {pattern text : Bytes} {n : Nat}
    (h : firstMatch pattern text = some n) :
    pattern <+: text.drop n := by
  induction text generalizing n with
  | nil =>
      rw [firstMatch] at h
      split at h
      · rename_i hempty
        rw [List.isEmpty_iff.mp hempty]
        exact List.nil_prefix
      · cases h
  | cons b rest ih =>
      rw [firstMatch] at h
      split at h
      · rename_i hmatch
        obtain rfl := Option.some.inj h
        exact List.isPrefixOf_iff_prefix.mp hmatch
      · obtain ⟨m, hm, rfl⟩ := Option.map_eq_some_iff.mp h
        exact ih hm

theorem find_spec {text pattern : Bytes} {start pos : Nat}
    (h : find text pattern start = some pos) :
    start ≤ pos ∧ start ≤ text.length ∧ pattern <+: text.drop pos := by
  unfold find at h
  split at h
  · cases h
  · rename_i hle
    obtain ⟨n, hmatch, rfl⟩ := Option.map_eq_some_iff.mp h
    have hprefix := prefix_of_firstMatch hmatch
    rw [List.drop_drop, Nat.add_comm] at hprefix
    exact ⟨Nat.le_add_left start n, Nat.not_lt.mp hle, hprefix⟩

theorem firstMatch_of_notMem {b : UInt8} {front : Bytes} (hfront : b ∉ front)
    (pattern rest : Bytes) :
    firstMatch (b :: pattern) (front ++ ((b :: pattern) ++ rest)) = some front.length := by
  induction front with
  | nil => exact firstMatch_append (b :: pattern) rest
  | cons c front ih =>
      simp only [List.mem_cons, not_or] at hfront
      have hhead : (b == c) = false := beq_eq_false_iff_ne.mpr hfront.1
      rw [List.cons_append, firstMatch, List.isPrefixOf_cons_cons, hhead, ih hfront.2]
      simp

end ElioP2P.Library
