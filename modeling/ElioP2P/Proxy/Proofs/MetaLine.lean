import ElioP2P.Proxy.Proofs.HashList

/-!
# Reading a `#meta` line back

The line separates its fields by blanks, so a field without characters leaves
nothing to be read.  A missing entity tag or a gap in the list of hashes moves
everything behind it to the front.
-/

namespace ElioP2P.Proxy

open ElioP2P.Library

def isHexDigit (b : UInt8) : Bool :=
  isDigit b || (65 ≤ b && b ≤ 70) || (97 ≤ b && b ≤ 102)

def IsHexHash (text : Bytes) : Prop := text.length = 64 ∧ ∀ b ∈ text, isHexDigit b = true

instance (text : Bytes) : Decidable (IsHexHash text) :=
  decidable_of_iff (text.length = 64 ∧ text.all isHexDigit = true) (by simp [IsHexHash])

theorem isSpace_of_isHexDigit {b : UInt8} (h : isHexDigit b = true) : isSpace b = false := by
  simp only [isHexDigit, isDigit, Bool.or_eq_true, Bool.and_eq_true, decide_eq_true_eq,
    UInt8.le_iff_toNat_le] at h
  simp only [isSpace, Bool.or_eq_false_iff, beq_eq_false_iff_ne, Bool.and_eq_false_iff,
    decide_eq_false_iff_not, UInt8.le_iff_toNat_le, ← UInt8.toNat_inj, ne_eq]
  change ((48 ≤ b.toNat ∧ b.toNat ≤ 57) ∨ (65 ≤ b.toNat ∧ b.toNat ≤ 70)) ∨
    (97 ≤ b.toNat ∧ b.toNat ≤ 102) at h
  change ¬ b.toNat = 32 ∧ (¬ 9 ≤ b.toNat ∨ ¬ b.toNat ≤ 13)
  omega

theorem IsHexHash.no_space {text : Bytes} (h : IsHexHash text) : ∀ b ∈ text, isSpace b = false :=
  fun b hb => isSpace_of_isHexDigit (h.2 b hb)

theorem fields_no_space {hashes : List Bytes} (h : ∀ hash ∈ hashes, hash = [] ∨ IsHexHash hash) :
    ∀ hash ∈ hashes, ∀ b ∈ hash, isSpace b = false := by
  intro hash hmem
  rcases h hash hmem with rfl | hhex
  · simp
  · exact hhex.no_space

/-! ## The words of a line -/

theorem extractWords_of_no_space {text : Bytes} (h : ∀ b ∈ text, isSpace b = false) :
    extractWords text = [text].filter fun word => !word.isEmpty := by
  by_cases hnil : text = []
  · subst hnil
    rfl
  · rw [extractWords_word h hnil]
    simp [hnil]

theorem extractWords_fields {first : Bytes} (hfirst : ∀ b ∈ first, isSpace b = false)
    {fields : List Bytes} (hfields : ∀ field ∈ fields, ∀ b ∈ field, isSpace b = false) :
    extractWords (first ++ fields.flatMap (ascii " " ++ ·)) =
      (first :: fields).filter fun word => !word.isEmpty := by
  induction fields generalizing first with
  | nil =>
      rw [List.flatMap_nil, List.append_nil]
      exact extractWords_of_no_space hfirst
  | cons field fields ih =>
      have hrest := ih (hfields field (by simp)) fun f hf => hfields f (by simp [hf])
      have hsplit : first ++ (field :: fields).flatMap (ascii " " ++ ·) =
          first ++ 32 :: (field ++ fields.flatMap (ascii " " ++ ·)) := by
        rw [List.flatMap_cons, List.append_assoc]
        rfl
      rw [hsplit, extractWords_append (by decide), hrest, extractWords_of_no_space hfirst,
        ← List.filter_append]
      rfl

theorem parseMeta_serializeMeta_eq {obj : ObjectInfo} (hsize : obj.size < 2 ^ 64)
    (hetag : ∀ b ∈ obj.etag, isSpace b = false)
    (hhashes : ∀ hash ∈ obj.chunkHashes, ∀ b ∈ hash, isSpace b = false) :
    parseMeta (serializeMeta obj) =
      some (match (obj.etag :: obj.chunkHashes).filter fun word => !word.isEmpty with
        | [] => { size := obj.size }
        | etag :: chunkHashes =>
            { size := obj.size, etag := etag, chunkHashes := chunkHashes }) := by
  have hread : extractWords (32 :: (obj.etag ++ obj.chunkHashes.flatMap (ascii " " ++ ·))) =
      (obj.etag :: obj.chunkHashes).filter fun word => !word.isEmpty :=
    (extractWords_space (by decide)).trans (extractWords_fields hetag hhashes)
  rw [← hread]
  exact congrArg (Option.map _) (extractUInt64_serializeMeta hsize)

/-- A line is read back as it was written exactly if it has no gap and, without
an entity tag, no hashes. -/
theorem parseMeta_serializeMeta_iff {obj : ObjectInfo} (hsize : obj.size < 2 ^ 64)
    (hetag : ∀ b ∈ obj.etag, isSpace b = false)
    (hhashes : ∀ hash ∈ obj.chunkHashes, hash = [] ∨ IsHexHash hash) :
    parseMeta (serializeMeta obj) = some obj ↔
      (∀ hash ∈ obj.chunkHashes, hash ≠ []) ∧ (obj.etag = [] → obj.chunkHashes = []) := by
  obtain ⟨size, etag, chunkHashes⟩ := obj
  have hkept : chunkHashes.filter (fun word => !word.isEmpty) = chunkHashes ↔
      ∀ hash ∈ chunkHashes, hash ≠ [] := by
    rw [List.filter_eq_self]
    simp
  rw [parseMeta_serializeMeta_eq hsize hetag (fields_no_space hhashes), Option.some.injEq]
  by_cases hnil : etag = []
  · subst hnil
    have hwords : ([] :: chunkHashes).filter (fun word : Bytes => !word.isEmpty) =
        chunkHashes.filter fun word => !word.isEmpty := rfl
    simp only [hwords, forall_const]
    constructor
    · intro heq
      -- The first word that was read cannot be the empty tag.
      cases hread : chunkHashes.filter fun word => !word.isEmpty with
      | nil =>
          simp only [hread, ObjectInfo.mk.injEq, true_and] at heq
          rw [← heq]
          simp
      | cons word words =>
          simp only [hread, ObjectInfo.mk.injEq, true_and] at heq
          have hmem : word ∈ chunkHashes.filter fun word => !word.isEmpty := by simp [hread]
          rw [List.mem_filter, heq.1] at hmem
          cases hmem.2
    · rintro ⟨-, rfl⟩
      rfl
  · have hwords : (etag :: chunkHashes).filter (fun word : Bytes => !word.isEmpty) =
        etag :: chunkHashes.filter fun word => !word.isEmpty := by
      simp [hnil]
    simp only [hwords, hnil, false_implies, and_true, ObjectInfo.mk.injEq, true_and]
    exact hkept

/-- An object whose second chunk was fetched first. -/
def outOfOrder : ObjectInfo :=
  { size := 5, etag := ascii "e", chunkHashes := [[], List.replicate 64 97] }

theorem outOfOrder_etag_no_space : ∀ b ∈ outOfOrder.etag, isSpace b = false := by
  have hetag : outOfOrder.etag = [101] := by decide
  simp [hetag, isSpace]

theorem parseMeta_serializeMeta_filled :
    parseMeta (serializeMeta { outOfOrder with chunkHashes := [List.replicate 64 97] }) =
      some { outOfOrder with chunkHashes := [List.replicate 64 97] } :=
  Iff.mpr (parseMeta_serializeMeta_iff (by decide) outOfOrder_etag_no_space (by decide))
    ⟨by decide, by decide⟩

/-- The hash of the second chunk is read back as that of the first. -/
theorem parseMeta_serializeMeta_gap :
    outOfOrder.size < 2 ^ 64 ∧ (∀ b ∈ outOfOrder.etag, isSpace b = false) ∧
      (∀ hash ∈ outOfOrder.chunkHashes, hash = [] ∨ IsHexHash hash) ∧
      parseMeta (serializeMeta outOfOrder) ≠ some outOfOrder := by
  have hhashes : ∀ hash ∈ outOfOrder.chunkHashes, hash = [] ∨ IsHexHash hash := by decide
  refine ⟨by decide, outOfOrder_etag_no_space, hhashes, ?_⟩
  rw [parseMeta_serializeMeta_eq (by decide) outOfOrder_etag_no_space (fields_no_space hhashes)]
  decide

end ElioP2P.Proxy
