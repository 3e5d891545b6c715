import ElioP2P.Library.OrderedMaps
import ElioP2P.Library.PercentEncoding

/-!
# Query strings

Pairs `name=value`, joined by `&`.  A pair is split at its first `=`, and empty
pieces between two `&` do not count.
-/

namespace ElioP2P.Library

/-! ## Pieces -/

/-- What repeated `std::getline` with a delimiter reads: a delimiter at the end
begins no further piece. -/
def getlines (sep : UInt8) (text : Bytes) : List Bytes :=
  let pieces := text.splitOn sep
  if pieces.getLast? = some [] then pieces.dropLast else pieces

def joinWith (sep : UInt8) (pieces : List Bytes) : Bytes := [sep].intercalate pieces

theorem joinWith_append (sep : UInt8) {a b : List Bytes} (ha : a ≠ []) (hb : b ≠ []) :
    joinWith sep (a ++ b) = joinWith sep a ++ sep :: joinWith sep b := by
  induction a with
  | nil => exact absurd rfl ha
  | cons piece a ih =>
      cases a with
      | nil =>
          obtain ⟨next, b, rfl⟩ := List.exists_cons_of_ne_nil hb
          simp [joinWith, List.intercalate]
      | cons next a =>
          have hrest := ih (List.cons_ne_nil next a)
          simp only [joinWith, List.intercalate, List.cons_append, List.intersperse_cons_cons,
            List.flatten_cons] at hrest ⊢
          rw [hrest]
          simp

theorem mem_joinWith_of_mem {sep : UInt8} {pieces : List Bytes} {piece : Bytes}
    (hpiece : piece ∈ pieces) {b : UInt8} (hb : b ∈ piece) : b ∈ joinWith sep pieces := by
  obtain ⟨before, behind, rfl⟩ := List.append_of_mem hpiece
  have hrest : b ∈ joinWith sep (piece :: behind) := by
    cases behind with
    | nil => simpa [joinWith, List.intercalate] using hb
    | cons next behind =>
        rw [← List.singleton_append, joinWith_append sep (List.cons_ne_nil _ _)
          (List.cons_ne_nil _ _)]
        simp [joinWith, List.intercalate, hb]
  cases before with
  | nil => exact hrest
  | cons first before =>
      rw [joinWith_append sep (List.cons_ne_nil _ _) (List.cons_ne_nil _ _)]
      exact List.mem_append_right _ (List.mem_cons_of_mem sep hrest)

theorem exists_mem_splitOn {sep b : UInt8} {text : Bytes} (hb : b ∈ text) (hne : b ≠ sep) :
    ∃ piece ∈ text.splitOn sep, b ∈ piece := by
  induction text with
  | nil => cases hb
  | cons c text ih =>
      obtain ⟨first, rest, hsplit⟩ := List.exists_cons_of_ne_nil (List.splitOn_ne_nil sep text)
      rw [List.splitOn_cons_eq_if_modifyHead]
      rcases List.mem_cons.mp hb with rfl | htext
      · rw [if_neg (by simpa using hne), hsplit]
        exact ⟨b :: first, List.mem_cons_self, List.mem_cons_self⟩
      · obtain ⟨piece, hpiece, hmem⟩ := ih htext
        split
        · exact ⟨piece, List.mem_cons_of_mem _ hpiece, hmem⟩
        · rw [hsplit] at hpiece ⊢
          rcases List.mem_cons.mp hpiece with rfl | hrest
          · exact ⟨c :: piece, List.mem_cons_self, List.mem_cons_of_mem c hmem⟩
          · exact ⟨piece, List.mem_cons_of_mem _ hrest, hmem⟩

def filledPieces (sep : UInt8) (text : Bytes) : List Bytes :=
  (text.splitOn sep).filter fun piece => !piece.isEmpty

theorem filter_getlines (sep : UInt8) (text : Bytes) :
    (getlines sep text).filter (fun piece => !piece.isEmpty) = filledPieces sep text := by
  simp only [getlines, filledPieces]
  split
  · rename_i hlast
    conv_rhs => rw [← List.dropLast_append_getLast? [] hlast]
    rw [List.filter_append]
    simp
  · rfl

theorem filledPieces_append (sep : UInt8) (a b : Bytes) :
    filledPieces sep (a ++ sep :: b) = filledPieces sep a ++ filledPieces sep b := by
  rw [filledPieces, List.splitOn_append_cons_self, List.filter_append]
  rfl

theorem filledPieces_joinWith {sep : UInt8} {pieces : List Bytes}
    (hsep : ∀ piece ∈ pieces, sep ∉ piece) (hne : ∀ piece ∈ pieces, piece ≠ []) :
    filledPieces sep (joinWith sep pieces) = pieces := by
  cases pieces with
  | nil => rfl
  | cons piece pieces =>
      rw [filledPieces, joinWith, List.splitOn_intercalate sep hsep (List.cons_ne_nil _ _),
        List.filter_eq_self]
      intro p hp
      simpa using hne p hp

/-! ## Pairs -/

def splitFirst (sep : UInt8) (text : Bytes) : Bytes × Bytes :=
  (text.takeWhile (· != sep), (text.dropWhile (· != sep)).tail)

theorem splitFirst_append {sep : UInt8} {front : Bytes} (hfront : sep ∉ front) (back : Bytes) :
    splitFirst sep (front ++ sep :: back) = (front, back) := by
  obtain ⟨htake, hdrop⟩ := split_separator hfront (.inr (List.head?_cons (a := sep) (l := back)))
  rw [splitFirst, htake, hdrop, List.tail_cons]

theorem getlines_of_ne_nil (sep : UInt8) {text : Bytes} (hne : text ≠ []) :
    getlines sep text = (splitFirst sep text).1 :: getlines sep (splitFirst sep text).2 := by
  by_cases hmem : sep ∈ text
  · obtain ⟨front, back, rfl, hfront⟩ := List.eq_append_cons_of_mem hmem
    obtain ⟨piece, pieces, hpieces⟩ := List.exists_cons_of_ne_nil (List.splitOn_ne_nil sep back)
    rw [splitFirst_append hfront]
    simp only [getlines, List.splitOn_append_cons_self, List.splitOn_eq_singleton hfront, hpieces,
      List.singleton_append, List.getLast?_cons_cons, List.dropLast_cons_cons]
    split <;> rfl
  · obtain ⟨htake, hdrop⟩ := split_separator hmem (.inl rfl)
    rw [List.append_nil] at htake hdrop
    rw [splitFirst, htake, hdrop]
    simp [getlines, List.splitOn_eq_singleton hmem, hne]

def renderPair (pair : Bytes × Bytes) : Bytes := pair.1 ++ 61 :: pair.2

def renderQuery (pairs : List (Bytes × Bytes)) : Bytes := joinWith 38 (pairs.map renderPair)

/-- The pairs of a query string as they stand in it. -/
def queryPairs (query : Bytes) : List (Bytes × Bytes) :=
  (filledPieces 38 query).map (splitFirst 61)

def queryParameters (query : Bytes) : List (Bytes × Bytes) :=
  (queryPairs query).map fun pair => (percentDecode pair.1, percentDecode pair.2)

/-- A pair that can be told from its neighbours and its name from its value. -/
def Separable (pair : Bytes × Bytes) : Prop := 38 ∉ pair.1 ∧ 61 ∉ pair.1 ∧ 38 ∉ pair.2

theorem queryPairs_append (a b : Bytes) :
    queryPairs (a ++ 38 :: b) = queryPairs a ++ queryPairs b := by
  rw [queryPairs, filledPieces_append, List.map_append]
  rfl

theorem notMem_renderPair {pair : Bytes × Bytes} (h : Separable pair) : 38 ∉ renderPair pair := by
  intro hmem
  rcases List.mem_append.mp hmem with hmem | hmem
  · exact h.1 hmem
  · rcases List.mem_cons.mp hmem with heq | hmem
    · cases heq
    · exact h.2.2 hmem

theorem renderQuery_singleton (pair : Bytes × Bytes) : renderQuery [pair] = renderPair pair := by
  simp [renderQuery, joinWith, List.intercalate]

theorem renderQuery_append {a b : List (Bytes × Bytes)} (ha : a ≠ []) (hb : b ≠ []) :
    renderQuery (a ++ b) = renderQuery a ++ 38 :: renderQuery b := by
  rw [renderQuery, List.map_append]
  exact joinWith_append 38 (by simpa using ha) (by simpa using hb)

theorem filledPieces_renderQuery {pairs : List (Bytes × Bytes)}
    (h : ∀ pair ∈ pairs, Separable pair) :
    filledPieces 38 (renderQuery pairs) = pairs.map renderPair := by
  refine filledPieces_joinWith (fun piece hpiece => ?_) fun piece hpiece => ?_
  · obtain ⟨pair, hpair, rfl⟩ := List.mem_map.mp hpiece
    exact notMem_renderPair (h pair hpair)
  · obtain ⟨pair, hpair, rfl⟩ := List.mem_map.mp hpiece
    simp [renderPair]

theorem queryPairs_renderQuery {pairs : List (Bytes × Bytes)}
    (h : ∀ pair ∈ pairs, Separable pair) : queryPairs (renderQuery pairs) = pairs := by
  rw [queryPairs, filledPieces_renderQuery h, List.map_map]
  conv_rhs => rw [← List.map_id pairs]
  exact List.map_congr_left fun pair hpair => splitFirst_append (h pair hpair).2.1 pair.2

theorem separable_of_mem_queryPairs {query : Bytes} {pair : Bytes × Bytes}
    (h : pair ∈ queryPairs query) : Separable pair := by
  obtain ⟨piece, hpiece, rfl⟩ := List.mem_map.mp h
  have hsep : 38 ∉ piece := notMem_of_mem_splitOn (List.mem_of_mem_filter hpiece)
  refine ⟨fun hmem => hsep ((List.takeWhile_sublist _).subset hmem), fun hmem => ?_, fun hmem => ?_⟩
  · have hstop := List.mem_takeWhile_imp hmem
    simp at hstop
  · exact hsep ((List.dropWhile_sublist _).subset (List.mem_of_mem_tail hmem))

theorem queryPairs_single {name value : Bytes} (h : Separable (name, value)) :
    queryPairs (name ++ 61 :: value) = [(name, value)] := by
  have hsingle : queryPairs (renderQuery [(name, value)]) = [(name, value)] :=
    queryPairs_renderQuery (by simpa using h)
  have hrender : renderQuery [(name, value)] = name ++ 61 :: value := by
    simp [renderQuery, joinWith, renderPair, List.intercalate]
  rwa [hrender] at hsingle

theorem length_of_mem_queryPairs {query : Bytes} {pair : Bytes × Bytes}
    (h : pair ∈ queryPairs query) : pair.1.length + pair.2.length ≤ query.length := by
  obtain ⟨piece, hpiece, rfl⟩ := List.mem_map.mp h
  have hpieceLength := length_le_of_mem_splitOn (List.mem_of_mem_filter hpiece)
  have hsplit := congrArg List.length
    (List.takeWhile_append_dropWhile (p := (· != (61 : UInt8))) (l := piece))
  rw [List.length_append] at hsplit
  simp only [splitFirst, List.length_tail]
  omega

/-- A value that is cut at `&`: what is read for its name is a beginning of it, or
comes from a later piece and has lost all of the name. -/
theorem lastValue_queryPairs_cut {name : Bytes} (hname : 38 ∉ name ∧ 61 ∉ name) (value : Bytes) :
    ∃ read, lastValue (queryPairs (name ++ 61 :: value)) name = some read ∧
      (read <+: value ∨ name.length + read.length < value.length) := by
  by_cases hamp : 38 ∈ value
  · obtain ⟨front, back, rfl, hfront⟩ := List.eq_append_cons_of_mem hamp
    have hpairs : queryPairs (name ++ 61 :: (front ++ 38 :: back)) =
        [(name, front)] ++ queryPairs back := by
      have hsplit :
          name ++ 61 :: (front ++ 38 :: back) = name ++ 61 :: front ++ 38 :: back := by simp
      rw [hsplit, queryPairs_append, queryPairs_single ⟨hname.1, hname.2, hfront⟩]
    have hfirst : lastValue [(name, front)] name = some front := by simp [lastValue]
    rw [hpairs, lastValue_append, hfirst]
    cases hlater : lastValue (queryPairs back) name with
    | none => exact ⟨front, rfl, .inl (List.prefix_append _ _)⟩
    | some read =>
        have hlength := length_of_mem_queryPairs (mem_of_lastValue hlater)
        refine ⟨read, rfl, .inr ?_⟩
        rw [List.length_append, List.length_cons]
        simp only at hlength
        omega
  · refine ⟨value, ?_, .inl List.prefix_rfl⟩
    rw [queryPairs_single ⟨hname.1, hname.2, hamp⟩]
    simp [lastValue]

/-! ## Encoded pairs -/

def encodePair (pair : Bytes × Bytes) : Bytes × Bytes :=
  (percentEncode isUnreserved pair.1, percentEncode isUnreserved pair.2)

theorem separable_encodePair (pair : Bytes × Bytes) : Separable (encodePair pair) :=
  ⟨notMem_percentEncode (by decide) (by decide) (by decide) _,
    notMem_percentEncode (by decide) (by decide) (by decide) _,
    notMem_percentEncode (by decide) (by decide) (by decide) _⟩

theorem queryParameters_renderQuery_encode (pairs : List (Bytes × Bytes)) :
    queryParameters (renderQuery (pairs.map encodePair)) = pairs := by
  rw [queryParameters, queryPairs_renderQuery, List.map_map]
  · conv_rhs => rw [← List.map_id pairs]
    refine List.map_congr_left fun pair _ => ?_
    have hpercent : isUnreserved 37 = false := by decide
    exact Prod.ext (percentDecode_percentEncode hpercent pair.1)
      (percentDecode_percentEncode hpercent pair.2)
  · intro pair hpair
    obtain ⟨plain, -, rfl⟩ := List.mem_map.mp hpair
    exact separable_encodePair plain

theorem percentEncoded_renderQuery (pairs : List (Bytes × Bytes)) :
    PercentEncoded (fun b => isUnreserved b || b == 61 || b == 38)
      (renderQuery (pairs.map encodePair)) := by
  have htext : ∀ text, PercentEncoded (fun b => isUnreserved b || b == 61 || b == 38)
      (percentEncode isUnreserved text) := fun text =>
    (percentEncoded_percentEncode text).mono fun b hb => by rw [hb]; rfl
  have hpair : ∀ pair, PercentEncoded (fun b => isUnreserved b || b == 61 || b == 38)
      (renderPair (encodePair pair)) := fun pair =>
    (htext pair.1).append (.byte (by decide) (htext pair.2))
  induction pairs with
  | nil => exact .nil
  | cons pair pairs ih =>
      cases pairs with
      | nil =>
          rw [List.map_singleton, renderQuery_singleton]
          exact hpair pair
      | cons next pairs =>
          have hsplit := renderQuery_append (List.cons_ne_nil (encodePair pair) [])
            (List.cons_ne_nil (encodePair next) (pairs.map encodePair))
          rw [renderQuery_singleton] at hsplit
          rw [List.map_cons, ← List.singleton_append, List.map_cons, hsplit]
          exact (hpair pair).append (.byte (by decide) ih)

theorem notMem_renderQuery_encode {b : UInt8}
    (hkept : (isUnreserved b || b == 61 || b == 38) = false) (hpercent : b ≠ 37)
    (hdigit : isUpperHexDigit b = false) (pairs : List (Bytes × Bytes)) :
    b ∉ renderQuery (pairs.map encodePair) := by
  intro hmem
  rcases (percentEncoded_renderQuery pairs).mem hmem with h | h | h
  · rw [hkept] at h
    cases h
  · exact hpercent h
  · rw [hdigit] at h
    cases h

/-! ## Bytes that escapes do not hide -/

section Visible

variable {c : UInt8} (hpercent : c ≠ 37) (hdigit : isHexadecimalDigit c = false) (hamp : c ≠ 38)
  (hequals : c ≠ 61)

include hpercent hdigit hamp hequals

theorem exists_mem_queryParameters {query : Bytes} (hmem : c ∈ query) :
    ∃ param ∈ queryParameters query, c ∈ param.1 ∨ c ∈ param.2 := by
  obtain ⟨piece, hpiece, hc⟩ := exists_mem_splitOn hmem hamp
  have hfilled : piece ∈ filledPieces 38 query := by
    refine List.mem_filter.mpr ⟨hpiece, ?_⟩
    rw [Bool.not_eq_true', List.isEmpty_eq_false_iff]
    exact List.ne_nil_of_mem hc
  refine ⟨_, List.mem_map_of_mem (List.mem_map_of_mem hfilled), ?_⟩
  have hsplit := List.takeWhile_append_dropWhile (p := (· != (61 : UInt8))) (l := piece)
  rw [← hsplit] at hc
  rcases List.mem_append.mp hc with hname | hrest
  · exact .inl (mem_percentDecode hpercent hdigit hname)
  · refine .inr (mem_percentDecode hpercent hdigit ?_)
    have hstop : ∀ b ∈ (piece.dropWhile (· != 61)).head?, (b != 61) = false := head?_dropWhile
    simp only [splitFirst]
    generalize piece.dropWhile (· != 61) = rest at hrest hstop
    cases rest with
    | nil => cases hrest
    | cons b rest =>
        have hb : b = 61 := by simpa using hstop b (by simp)
        exact (List.mem_cons.mp hrest).resolve_left fun heq => hequals (heq.trans hb)

/-- Text in front of an encoded query changes its first parameter or adds others. -/
theorem not_perm_of_mem_front {front : Bytes} (hfront : c ∈ front) {first : Bytes × Bytes}
    (hfirst : c ∉ first.1 ∧ c ∉ first.2) (rest : List (Bytes × Bytes)) :
    ¬ (queryParameters (front ++ renderQuery ((first :: rest).map encodePair))).Perm
      (first :: rest) := by
  have hsplit : queryParameters (front ++ renderQuery ((first :: rest).map encodePair)) =
      queryParameters (front ++ renderPair (encodePair first)) ++ rest := by
    cases rest with
    | nil => rw [List.map_singleton, renderQuery_singleton, List.append_nil]
    | cons next rest =>
        have hrender := renderQuery_append (List.cons_ne_nil (encodePair first) [])
          (List.cons_ne_nil (encodePair next) (rest.map encodePair))
        have hdecode := queryParameters_renderQuery_encode (next :: rest)
        rw [List.map_cons] at hdecode
        rw [renderQuery_singleton] at hrender
        rw [List.map_cons, ← List.singleton_append, List.map_cons, hrender, ← List.append_assoc]
        rw [queryParameters, queryPairs_append, List.map_append]
        exact congrArg (queryParameters (front ++ renderPair (encodePair first)) ++ ·) hdecode
  intro hperm
  rw [hsplit, ← List.singleton_append, List.perm_append_right_iff, List.perm_singleton] at hperm
  obtain ⟨param, hparam, hc⟩ := exists_mem_queryParameters hpercent hdigit hamp hequals
    (List.mem_append_left (renderPair (encodePair first)) hfront)
  rw [hperm, List.mem_singleton] at hparam
  subst hparam
  exact hc.elim hfirst.1 hfirst.2

end Visible

/-- A first parameter whose value is not encoded is read back exactly if there is
neither a `&` nor an escape in the value. -/
theorem perm_raw_first_iff {name : Bytes} (hname : 38 ∉ name ∧ 61 ∉ name)
    (hplain : percentDecode name = name) (value : Bytes) {rest : List (Bytes × Bytes)}
    (hrest : name ∉ rest.map Prod.fst) :
    (queryParameters (name ++ 61 :: (value ++ 38 :: renderQuery (rest.map encodePair)))).Perm
        ((name, value) :: rest) ↔
      38 ∉ value ∧ ¬ HasEscape value := by
  have hread : ∀ front back : Bytes, 38 ∉ front →
      queryParameters (name ++ 61 :: (front ++ 38 :: back)) =
        (name, percentDecode front) :: queryParameters back := by
    intro front back hfront
    have hsplit : name ++ 61 :: (front ++ 38 :: back) = name ++ 61 :: front ++ 38 :: back := by simp
    rw [hsplit, queryParameters, queryPairs_append, queryPairs_single ⟨hname.1, hname.2, hfront⟩,
      List.map_append, List.map_singleton, hplain]
    rfl
  have hvalue : ∀ {read : Bytes}, (name, read) ∈ (name, value) :: rest → read = value := by
    intro read hmem
    rcases List.mem_cons.mp hmem with heq | hmem
    · exact (Prod.mk.inj heq).2
    · exact absurd (List.mem_map_of_mem (f := Prod.fst) hmem) hrest
  constructor
  · intro hperm
    have hamp : 38 ∉ value := by
      intro hmem
      obtain ⟨front, back, rfl, hfront⟩ := List.eq_append_cons_of_mem hmem
      rw [List.append_assoc, List.cons_append, hread _ _ hfront] at hperm
      have hlength := congrArg List.length (hvalue (hperm.mem_iff.mp List.mem_cons_self))
      have hle := length_percentDecode_le front
      rw [List.length_append, List.length_cons] at hlength
      omega
    rw [hread _ _ hamp] at hperm
    exact ⟨hamp, percentDecode_eq_self_iff.mp (hvalue (hperm.mem_iff.mp List.mem_cons_self))⟩
  · rintro ⟨hamp, hescape⟩
    rw [hread _ _ hamp, percentDecode_eq_self_iff.mpr hescape, queryParameters_renderQuery_encode]

end ElioP2P.Library
