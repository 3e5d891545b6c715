import ElioP2P.Library.Bytes

/-!
# Decimal numbers in a text

`std::stoull` passes over blanks, one sign and whatever stands behind the
digits, and throws for a number of more than 64 bits.  This module states what it
reads from a text as a relation and proves that `stoull` computes it.
-/

namespace ElioP2P.Library

def IsDecimal (text : Bytes) : Prop := text ≠ [] ∧ ∀ b ∈ text, isDigit b = true

inductive ReadsAs : Bytes → Nat → Prop
  | unsigned {blanks sign digits rest : Bytes} (hblanks : ∀ b ∈ blanks, isSpace b = true)
      (hsign : sign = [] ∨ sign = [43]) (hdigits : IsDecimal digits)
      (hrest : ∀ b ∈ rest.head?, isDigit b = false) (hlt : decimalValue digits < 2 ^ 64) :
      ReadsAs (blanks ++ (sign ++ (digits ++ rest))) (decimalValue digits)
  | negated {blanks digits rest : Bytes} (hblanks : ∀ b ∈ blanks, isSpace b = true)
      (hdigits : IsDecimal digits) (hrest : ∀ b ∈ rest.head?, isDigit b = false)
      (hlt : decimalValue digits < 2 ^ 64) :
      ReadsAs (blanks ++ 45 :: (digits ++ rest)) ((2 ^ 64 - decimalValue digits) % 2 ^ 64)

theorem isSpace_of_isDigit {b : UInt8} (h : isDigit b = true) : isSpace b = false := by
  simp only [isDigit, Bool.and_eq_true, decide_eq_true_eq, UInt8.le_iff_toNat_le] at h
  simp only [isSpace, Bool.or_eq_false_iff, beq_eq_false_iff_ne, Bool.and_eq_false_iff,
    decide_eq_false_iff_not, UInt8.le_iff_toNat_le, ← UInt8.toNat_inj, ne_eq]
  change 48 ≤ b.toNat ∧ b.toNat ≤ 57 at h
  change ¬ b.toNat = 32 ∧ (¬ 9 ≤ b.toNat ∨ ¬ b.toNat ≤ 13)
  omega

theorem unsignedPrefix_digits {digits rest : Bytes} (hdigits : IsDecimal digits)
    (hrest : ∀ b ∈ rest.head?, isDigit b = false) (hlt : decimalValue digits < 2 ^ 64) :
    unsignedPrefix (digits ++ rest) = some (decimalValue digits, rest) ∧
      unsignedPrefix (43 :: (digits ++ rest)) = some (decimalValue digits, rest) ∧
      unsignedPrefix (45 :: (digits ++ rest)) =
        some ((2 ^ 64 - decimalValue digits) % 2 ^ 64, rest) := by
  obtain ⟨htake, hdrop⟩ := takeWhile_append_stop hdigits.2 hrest
  have hguard : (digits.isEmpty || decide (2 ^ 64 ≤ decimalValue digits)) = false := by
    rw [Bool.or_eq_false_iff, List.isEmpty_eq_false_iff, decide_eq_false_iff_not]
    exact ⟨hdigits.1, by omega⟩
  obtain ⟨d, ds, hd⟩ := List.exists_cons_of_ne_nil hdigits.1
  have hfirst : isDigit d = true := hdigits.2 d (by simp [hd])
  have hhead : (digits ++ rest).head? = some d := by simp [hd]
  have hminus : ((some d : Option UInt8) == some 45) = false := by
    rw [beq_eq_false_iff_ne]
    rintro h
    cases h
    cases hfirst
  have hplus : ((some d : Option UInt8) == some 43) = false := by
    rw [beq_eq_false_iff_ne]
    rintro h
    cases h
    cases hfirst
  refine ⟨?_, ?_, ?_⟩
  · simp only [unsignedPrefix, hhead, hminus, hplus, Bool.or_self, Bool.false_eq_true, if_false,
      htake, hdrop, hguard]
  · simp only [unsignedPrefix, List.head?_cons, List.tail_cons, beq_self_eq_true, Bool.or_true,
      if_true, htake, hdrop, hguard, Bool.false_eq_true, if_false]
    rfl
  · simp only [unsignedPrefix, List.head?_cons, List.tail_cons, beq_self_eq_true, Bool.true_or,
      if_true, htake, hdrop, hguard, Bool.false_eq_true, if_false]

theorem unsignedPrefix_cases {text rest : Bytes} {n : Nat}
    (h : unsignedPrefix text = some (n, rest)) :
    ∃ digits, IsDecimal digits ∧ (∀ b ∈ rest.head?, isDigit b = false) ∧
      decimalValue digits < 2 ^ 64 ∧
      ((text = digits ++ rest ∨ text = 43 :: (digits ++ rest)) ∧ n = decimalValue digits ∨
        text = 45 :: (digits ++ rest) ∧ n = (2 ^ 64 - decimalValue digits) % 2 ^ 64) := by
  -- What remains once the sign, if there is one, is taken off.
  have hbody : ∀ body : Bytes, ¬ ((body.takeWhile isDigit).isEmpty ||
      decide (2 ^ 64 ≤ decimalValue (body.takeWhile isDigit))) = true →
      body.dropWhile isDigit = rest →
      IsDecimal (body.takeWhile isDigit) ∧ (∀ b ∈ rest.head?, isDigit b = false) ∧
        decimalValue (body.takeWhile isDigit) < 2 ^ 64 ∧
        body = body.takeWhile isDigit ++ rest := by
    rintro body hguard rfl
    rw [Bool.or_eq_true, List.isEmpty_iff, decide_eq_true_eq, not_or, Nat.not_le] at hguard
    exact ⟨⟨hguard.1, fun b => List.mem_takeWhile_imp⟩, head?_dropWhile, hguard.2,
      List.takeWhile_append_dropWhile.symm⟩
  unfold unsignedPrefix at h
  by_cases hminus : text.head? = some 45
  · obtain ⟨tail, rfl⟩ : ∃ tail, text = 45 :: tail := List.head?_eq_some_iff.mp hminus
    simp only [List.head?_cons, List.tail_cons, beq_self_eq_true, Bool.true_or, if_true,
      Option.ite_none_left_eq_some, Option.some.injEq, Prod.mk.injEq] at h
    obtain ⟨hguard, rfl, hrest⟩ := h
    obtain ⟨hdigits, hstop, hlt, heq⟩ := hbody tail hguard hrest
    exact ⟨_, hdigits, hstop, hlt, .inr ⟨congrArg (45 :: ·) heq, rfl⟩⟩
  · have hunsigned : (text.head? == some 45) = false := beq_eq_false_iff_ne.mpr hminus
    simp only [hunsigned, Bool.false_or, Bool.false_eq_true, if_false,
      Option.ite_none_left_eq_some, Option.some.injEq, Prod.mk.injEq] at h
    obtain ⟨hguard, rfl, hrest⟩ := h
    obtain ⟨hdigits, hstop, hlt, heq⟩ := hbody _ hguard hrest
    refine ⟨_, hdigits, hstop, hlt, .inl ⟨?_, rfl⟩⟩
    by_cases hplus : text.head? = some 43
    · obtain ⟨tail, rfl⟩ : ∃ tail, text = 43 :: tail := List.head?_eq_some_iff.mp hplus
      exact .inr (congrArg (43 :: ·) heq)
    · rw [if_neg (by rwa [beq_iff_eq])] at heq ⊢
      exact .inl heq

theorem stoull_eq_some_iff {text : Bytes} {n : Nat} : stoull text = some n ↔ ReadsAs text n := by
  have hskip : ∀ {blanks body : Bytes}, (∀ b ∈ blanks, isSpace b = true) →
      (∀ b ∈ body.head?, isSpace b = false) →
      stoull (blanks ++ body) = (unsignedPrefix body).map Prod.fst := by
    intro blanks body hblanks hbody
    rw [stoull, (takeWhile_append_stop hblanks hbody).2]
  have hdigit : ∀ {digits rest : Bytes}, IsDecimal digits →
      ∀ b ∈ (digits ++ rest).head?, isSpace b = false := by
    intro digits rest hdigits b hb
    obtain ⟨d, ds, rfl⟩ := List.exists_cons_of_ne_nil hdigits.1
    cases hb
    exact isSpace_of_isDigit (hdigits.2 _ (by simp))
  constructor
  · intro h
    obtain ⟨⟨value, rest⟩, hstarts, rfl⟩ := Option.map_eq_some_iff.mp h
    have hblanks : ∀ b ∈ text.takeWhile isSpace, isSpace b = true := fun b =>
      List.mem_takeWhile_imp
    have hsplit : text.takeWhile isSpace ++ text.dropWhile isSpace = text :=
      List.takeWhile_append_dropWhile
    rw [← hsplit]
    generalize text.dropWhile isSpace = body at hstarts
    obtain ⟨digits, hdigits, hrest, hlt, ⟨rfl | rfl, rfl⟩ | ⟨rfl, rfl⟩⟩ :=
      unsignedPrefix_cases hstarts
    · have hread := ReadsAs.unsigned hblanks (.inl rfl) hdigits hrest hlt
      exact hread
    · have hread := ReadsAs.unsigned hblanks (.inr rfl) hdigits hrest hlt
      exact hread
    · exact .negated hblanks hdigits hrest hlt
  · rintro (⟨hblanks, rfl | rfl, hdigits, hrest, hlt⟩ | ⟨hblanks, hdigits, hrest, hlt⟩)
    · rw [List.nil_append, hskip hblanks (hdigit hdigits),
        (unsignedPrefix_digits hdigits hrest hlt).1, Option.map_some]
    · rw [List.singleton_append, hskip hblanks (by simp [isSpace]),
        (unsignedPrefix_digits hdigits hrest hlt).2.1, Option.map_some]
    · rw [hskip hblanks (by simp [isSpace]), (unsignedPrefix_digits hdigits hrest hlt).2.2,
        Option.map_some]

theorem stoull_digits {text : Bytes} (h : ∀ b ∈ text, isDigit b = true) {n : Nat} :
    stoull text = some n ↔ text ≠ [] ∧ decimalValue text < 2 ^ 64 ∧ n = decimalValue text := by
  have hblank : text.dropWhile isSpace = text := by
    cases text with
    | nil => rfl
    | cons b text =>
        have hb : isSpace b = false := isSpace_of_isDigit (h b (by simp))
        simp [hb]
  rw [stoull, hblank]
  constructor
  · intro hread
    obtain ⟨⟨value, rest⟩, hstarts, rfl⟩ := Option.map_eq_some_iff.mp hread
    obtain ⟨digits, hdigits, hrest, hlt, ⟨rfl | rfl, rfl⟩ | ⟨rfl, rfl⟩⟩ :=
      unsignedPrefix_cases hstarts
    · cases rest with
      | nil =>
          rw [List.append_nil]
          exact ⟨hdigits.1, hlt, rfl⟩
      | cons b rest =>
          have hdigit := h b (by simp)
          rw [hrest b (by simp)] at hdigit
          cases hdigit
    · cases h 43 (by simp)
    · cases h 45 (by simp)
  · rintro ⟨hnil, hlt, rfl⟩
    have hstarts :=
      (unsignedPrefix_digits ⟨hnil, h⟩ (show ∀ b ∈ ([] : Bytes).head?, _ by simp) hlt).1
    rw [List.append_nil] at hstarts
    rw [hstarts, Option.map_some]

theorem dropWhile_isSpace_decimal (n : Nat) (rest : Bytes) :
    (decimal n ++ rest).dropWhile isSpace = decimal n ++ rest := by
  obtain ⟨d, ds, hd⟩ := List.exists_cons_of_ne_nil (decimal_ne_nil n)
  have hmem : d ∈ decimal n := by rw [hd]; exact List.mem_cons_self
  rw [hd, List.cons_append, List.dropWhile_cons, isSpace_of_isDigit (isDigit_of_mem_decimal hmem)]
  rfl

theorem stoull_decimal {n : Nat} (hn : n < 2 ^ 64) : stoull (decimal n) = some n := by
  refine (stoull_digits fun b => isDigit_of_mem_decimal).mpr ⟨decimal_ne_nil n, ?_, ?_⟩
  · rwa [decimalValue_decimal]
  · exact (decimalValue_decimal n).symm

end ElioP2P.Library
