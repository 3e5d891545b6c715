import ElioP2P.Storage.S3Client

/-!
# The canonical query string

`canonicalize_query_string` splits a raw query, encodes names and values and
puts them into a map, so its result is the encoded query of the last value of
every name, in the order of the encoded names.  For parameters without `&` in
them and with distinct names that is all of them; a raw `&` inside a value,
such as a prefix of `list_objects`, cuts the value.
-/

namespace ElioP2P.Storage

open ElioP2P.Library

/-! ## The map of a query -/

def canonicalParams (query : Bytes) : OrderedMap Bytes Bytes :=
  OrderedMap.empty.assignAll ((queryPairs query).map encodePair)

theorem canonicalizeQueryString_eq (query : Bytes) :
    canonicalizeQueryString query = renderQuery (canonicalParams query).entries := by
  have hfold : ∀ (pieces : List Bytes) (m : OrderedMap Bytes Bytes),
      pieces.foldl (fun params pair =>
        if pair.isEmpty then params
        else params.assign (urlEncodeQuery (splitFirst 61 pair).1)
          (urlEncodeQuery (splitFirst 61 pair).2)) m =
      m.assignAll (((pieces.filter fun piece => !piece.isEmpty).map (splitFirst 61)).map
        encodePair) := by
    intro pieces
    induction pieces with
    | nil => exact fun m => rfl
    | cons piece pieces ih =>
        intro m
        rw [List.foldl_cons, ih]
        cases piece with
        | nil => rfl
        | cons b piece => rfl
  have hpieces := hfold (getlines 38 query) .empty
  rw [filter_getlines] at hpieces
  exact congrArg (fun params => renderQuery (OrderedMap.entries params)) hpieces

theorem encodeName_injective : Function.Injective (percentEncode isUnreserved) :=
  percentEncode_injective (by decide)

theorem exists_entries_canonicalParams (query : Bytes) :
    ∃ pairs : List (Bytes × Bytes), (canonicalParams query).entries = pairs.map encodePair ∧
      (pairs.map Prod.fst).Nodup ∧
      ∀ name value, (name, value) ∈ pairs ↔ lastValue (queryPairs query) name = some value := by
  have hpairs : ∀ entry ∈ (canonicalParams query).entries, ∃ pair, encodePair pair = entry := by
    intro entry hentry
    have hlast := (OrderedMap.mem_assignAll_iff _).mp hentry
    obtain ⟨pair, -, heq⟩ := List.mem_map.mp (mem_of_lastValue hlast)
    exact ⟨pair, heq⟩
  obtain ⟨pairs, hentries⟩ : ∃ pairs : List (Bytes × Bytes),
      (canonicalParams query).entries = pairs.map encodePair := by
    refine ⟨(canonicalParams query).entries.map fun entry =>
      (percentDecode entry.1, percentDecode entry.2), ?_⟩
    rw [List.map_map]
    conv_lhs => rw [← List.map_id (canonicalParams query).entries]
    refine List.map_congr_left fun entry hentry => ?_
    obtain ⟨pair, rfl⟩ := hpairs entry hentry
    have hpercent : isUnreserved 37 = false := by decide
    simp only [Function.comp_apply, id, encodePair, percentDecode_percentEncode hpercent]
  refine ⟨pairs, hentries, ?_, fun name value => ?_⟩
  · have hnodup := OrderedMap.nodup_keys (canonicalParams query)
    rw [hentries, List.map_map] at hnodup
    have hcomp : Prod.fst ∘ encodePair = percentEncode isUnreserved ∘ Prod.fst := rfl
    rw [hcomp, ← List.map_map] at hnodup
    exact List.Nodup.of_map _ hnodup
  · have hinj : Function.Injective encodePair := fun p q h =>
      Prod.ext (encodeName_injective (congrArg Prod.fst h))
        (encodeName_injective (congrArg Prod.snd h))
    have hlast := lastValue_map encodeName_injective (percentEncode isUnreserved)
      (queryPairs query) name
    have hmem : (name, value) ∈ pairs ↔
        encodePair (name, value) ∈ (canonicalParams query).entries := by
      rw [hentries, List.mem_map_of_injective hinj]
    rw [hmem]
    refine (OrderedMap.mem_assignAll_iff _).trans ?_
    change lastValue ((queryPairs query).map fun pair =>
      (percentEncode isUnreserved pair.1, percentEncode isUnreserved pair.2))
        (percentEncode isUnreserved name) = some (percentEncode isUnreserved value) ↔ _
    rw [hlast]
    constructor
    · intro h
      obtain ⟨value', hvalue', heq⟩ := Option.map_eq_some_iff.mp h
      rw [hvalue', encodeName_injective heq]
    · intro h
      rw [h]
      rfl

theorem queryParameters_canonicalize (query : Bytes) :
    ((queryParameters (canonicalizeQueryString query)).map Prod.fst).Nodup ∧
      ∀ name value, (name, value) ∈ queryParameters (canonicalizeQueryString query) ↔
        lastValue (queryPairs query) name = some value := by
  obtain ⟨pairs, hentries, hnodup, hmem⟩ := exists_entries_canonicalParams query
  rw [canonicalizeQueryString_eq, hentries, queryParameters_renderQuery_encode]
  exact ⟨hnodup, hmem⟩

theorem lastValue_queryParameters_canonicalize (query name : Bytes) :
    lastValue (queryParameters (canonicalizeQueryString query)) name =
      lastValue (queryPairs query) name := by
  obtain ⟨hnodup, hmem⟩ := queryParameters_canonicalize query
  refine Option.ext fun value => ?_
  rw [lastValue_eq_some_iff hnodup, hmem]

theorem sorted_canonicalize (query : Bytes) :
    ((queryPairs (canonicalizeQueryString query)).map Prod.fst).Pairwise (· < ·) := by
  obtain ⟨pairs, hentries, -, -⟩ := exists_entries_canonicalParams query
  have hsorted := (canonicalParams query).sorted
  rw [canonicalizeQueryString_eq, queryPairs_renderQuery]
  · exact List.pairwise_map.mpr hsorted
  · rw [hentries]
    intro pair hpair
    obtain ⟨plain, -, rfl⟩ := List.mem_map.mp hpair
    exact separable_encodePair plain

theorem percentEncoded_canonicalize (query : Bytes) :
    PercentEncoded (fun b => isUnreserved b || b == 61 || b == 38)
      (canonicalizeQueryString query) := by
  obtain ⟨pairs, hentries, -, -⟩ := exists_entries_canonicalParams query
  rw [canonicalizeQueryString_eq, hentries]
  exact percentEncoded_renderQuery pairs

/-! ## Distinct parameters -/

/-- Parameters that a query string can carry: distinct names, no `&`, and no `=`
in a name. -/
structure PlainParameters (params : List (Bytes × Bytes)) : Prop where
  distinct : (params.map Prod.fst).Nodup
  separable : ∀ param ∈ params, Separable param

/-- The canonical query of plain parameters does not depend on their order, is
sorted and fully encoded, and decodes to them. -/
theorem canonicalizeQueryString_plain {params : List (Bytes × Bytes)} (h : PlainParameters params) :
    (∀ params', params'.Perm params →
      canonicalizeQueryString (renderQuery params') =
        canonicalizeQueryString (renderQuery params)) ∧
    ((queryPairs (canonicalizeQueryString (renderQuery params))).map Prod.fst).Pairwise (· < ·) ∧
    PercentEncoded (fun b => isUnreserved b || b == 61 || b == 38)
      (canonicalizeQueryString (renderQuery params)) ∧
    (queryParameters (canonicalizeQueryString (renderQuery params))).Perm params := by
  refine ⟨fun params' hperm => ?_, sorted_canonicalize _, percentEncoded_canonicalize _, ?_⟩
  · have hseparable' : ∀ param ∈ params', Separable param :=
      fun param hparam => h.separable param (hperm.mem_iff.mp hparam)
    have hdistinct : ((params.map encodePair).map Prod.fst).Nodup := by
      have hcomp : Prod.fst ∘ encodePair = percentEncode isUnreserved ∘ Prod.fst := rfl
      rw [List.map_map, hcomp, ← List.map_map]
      exact h.distinct.map encodeName_injective
    rw [canonicalizeQueryString_eq, canonicalizeQueryString_eq, canonicalParams, canonicalParams,
      queryPairs_renderQuery hseparable', queryPairs_renderQuery h.separable,
      OrderedMap.assignAll_perm hdistinct (hperm.symm.map encodePair)]
  · obtain ⟨hnodup, hmem⟩ := queryParameters_canonicalize (renderQuery params)
    refine (List.perm_ext_iff_of_nodup (List.Nodup.of_map _ hnodup)
      (List.Nodup.of_map _ h.distinct)).mpr fun param => ?_
    obtain ⟨name, value⟩ := param
    rw [hmem, queryPairs_renderQuery h.separable, lastValue_eq_some_iff h.distinct]

/-- Two parameters, one with bytes that have to be escaped. -/
theorem canonicalizeQueryString_plain_pair :
    (∀ params', params'.Perm [(ascii "b", ascii "x y/"), (ascii "a", ascii "1=2")] →
      canonicalizeQueryString (renderQuery params') = canonicalizeQueryString
        (renderQuery [(ascii "b", ascii "x y/"), (ascii "a", ascii "1=2")])) ∧
    ((queryPairs (canonicalizeQueryString (renderQuery
      [(ascii "b", ascii "x y/"), (ascii "a", ascii "1=2")]))).map Prod.fst).Pairwise (· < ·) ∧
    PercentEncoded (fun b => isUnreserved b || b == 61 || b == 38)
      (canonicalizeQueryString (renderQuery
        [(ascii "b", ascii "x y/"), (ascii "a", ascii "1=2")])) ∧
    (queryParameters (canonicalizeQueryString (renderQuery
      [(ascii "b", ascii "x y/"), (ascii "a", ascii "1=2")]))).Perm
        [(ascii "b", ascii "x y/"), (ascii "a", ascii "1=2")] := by
  apply canonicalizeQueryString_plain
  refine ⟨by decide, fun param hparam => ?_⟩
  simp only [List.mem_cons, List.not_mem_nil, or_false] at hparam
  rcases hparam with rfl | rfl
  · exact ⟨by decide, by decide, by decide⟩
  · exact ⟨by decide, by decide, by decide⟩

example : canonicalizeQueryString (ascii "b=x y/&a=1=2") = ascii "a=1%3D2&b=x%20y%2F" := by decide

/-! ## The query of a listing -/

namespace S3Client

def listParameters (keyPrefix : Bytes) (maxKeys : UInt32) : List (Bytes × Bytes) :=
  (ascii "list-type", ascii "2") ::
    ((if keyPrefix.isEmpty then [] else [(ascii "prefix", keyPrefix)]) ++
      [(ascii "max-keys", decimal maxKeys.toNat)])

theorem nodup_listParameters (keyPrefix : Bytes) (maxKeys : UInt32) :
    ((listParameters keyPrefix maxKeys).map Prod.fst).Nodup := by
  have hwith : [ascii "list-type", ascii "prefix", ascii "max-keys"].Nodup := by decide
  have hwithout : [ascii "list-type", ascii "max-keys"].Nodup := by decide
  unfold listParameters
  split
  · exact hwithout
  · exact hwith

theorem separable_decimal {name : Bytes} (hname : 38 ∉ name ∧ 61 ∉ name) (n : Nat) :
    Separable (name, decimal n) := ⟨hname.1, hname.2, notMem_decimal rfl n⟩

theorem queryPairs_optional (query : Bytes) (absent : Prop) [Decidable absent] {label name : Bytes}
    (hlabel : label = 38 :: name) (value : Bytes) :
    queryPairs (query ++ if absent then [] else label ++ value) =
      queryPairs query ++ if absent then [] else queryPairs (name ++ value) := by
  split
  · rw [List.append_nil, List.append_nil]
  · rw [hlabel, List.cons_append, queryPairs_append]

/-- The query splits at its own separators, whatever prefix and token are cut
into. -/
theorem queryPairs_listQuery (keyPrefix continuationToken : Bytes) (maxKeys : UInt32) :
    queryPairs (listQuery keyPrefix continuationToken maxKeys) =
      (ascii "list-type", ascii "2") ::
        ((if keyPrefix.isEmpty then [] else queryPairs (ascii "prefix=" ++ keyPrefix)) ++
          ((if 0 < maxKeys then [(ascii "max-keys", decimal maxKeys.toNat)] else []) ++
            if continuationToken.isEmpty then []
            else queryPairs (ascii "continuation-token=" ++ continuationToken))) := by
  have htype : queryPairs (ascii "list-type=2") = [(ascii "list-type", ascii "2")] := by decide
  have hkeys : queryPairs (ascii "max-keys=" ++ decimal maxKeys.toNat) =
      [(ascii "max-keys", decimal maxKeys.toNat)] := by
    have hsplit : ascii "max-keys=" = ascii "max-keys" ++ [61] := by decide
    rw [hsplit, List.append_assoc]
    exact queryPairs_single (separable_decimal (by decide) _)
  have hprefix : ascii "&prefix=" = 38 :: ascii "prefix=" := by decide
  have hmax : ascii "&max-keys=" = 38 :: ascii "max-keys=" := by decide
  have htoken : ascii "&continuation-token=" = 38 :: ascii "continuation-token=" := by decide
  have hflip : ∀ text : Bytes, (if 0 < maxKeys then text else []) =
      if ¬ 0 < maxKeys then [] else text := fun text => (ite_not _ _ _).symm
  rw [listQuery, hflip, queryPairs_optional _ _ htoken, queryPairs_optional _ _ hmax,
    queryPairs_optional _ _ hprefix, htype, ite_not]
  simp only [hkeys, List.append_assoc, List.cons_append, List.nil_append]

/-- The request carries exactly the parameters, and they are what is signed. -/
structure Carries (request : OutgoingRequest) (params : List (Bytes × Bytes)) : Prop where
  sent : (queryParameters request.query).Perm params
  signed : ∀ signed, request.signed = some signed → signed.query = request.query

/-- A listing asks with the given prefix exactly if there is no `&` in it. -/
theorem carries_listObjectsRequest_iff (crypto : Crypto) (client : S3Client)
    (first second : Instant) (bucket keyPrefix : Bytes) {maxKeys : UInt32} (hmax : 0 < maxKeys) :
    Carries (listObjectsRequest crypto client first second bucket keyPrefix [] maxKeys)
      (listParameters keyPrefix maxKeys) ↔ 38 ∉ keyPrefix := by
  have hpairs := queryPairs_listQuery keyPrefix [] maxKeys
  rw [if_pos hmax, List.isEmpty_nil, if_pos rfl, List.append_nil] at hpairs
  obtain ⟨hnodup, hmem⟩ := queryParameters_canonicalize (listQuery keyPrefix [] maxKeys)
  constructor
  · rintro ⟨hsent, -⟩ hamp
    have hfilled : ¬ keyPrefix.isEmpty = true := by
      intro hempty
      rw [List.isEmpty_iff.mp hempty] at hamp
      cases hamp
    have hasked : (ascii "prefix", keyPrefix) ∈ listParameters keyPrefix maxKeys := by
      simp [listParameters, hfilled]
    have hlast := (hmem _ _).mp (hsent.mem_iff.mpr hasked)
    exact (separable_of_mem_queryPairs (mem_of_lastValue hlast)).2.2 hamp
  · intro hamp
    have hplain : queryPairs (listQuery keyPrefix [] maxKeys) =
        listParameters keyPrefix maxKeys := by
      have hname : 38 ∉ ascii "prefix" ∧ 61 ∉ ascii "prefix" := by decide
      have hsplit : ascii "prefix=" = ascii "prefix" ++ [61] := by decide
      have hprefix : queryPairs (ascii "prefix=" ++ keyPrefix) = [(ascii "prefix", keyPrefix)] := by
        rw [hsplit, List.append_assoc]
        exact queryPairs_single ⟨hname.1, hname.2, hamp⟩
      rw [hpairs, hprefix, listParameters]
    have hdistinct := nodup_listParameters keyPrefix maxKeys
    refine ⟨?_, fun signed hsigned => ?_⟩
    · refine (List.perm_ext_iff_of_nodup (List.Nodup.of_map _ hnodup)
        (List.Nodup.of_map _ hdistinct)).mpr fun param => ?_
      obtain ⟨name, value⟩ := param
      rw [hmem, hplain, lastValue_eq_some_iff hdistinct]
    · simp only [listObjectsRequest, executeRequest, signRequest] at hsigned ⊢
      split at hsigned
      · cases hsigned
      · cases hsigned
        rfl

/-- The objects below `docs/a=b` are asked for. -/
theorem carries_listObjectsRequest_folder :
    Carries (listObjectsRequest sampleCrypto sample ⟨0, by decide, by decide⟩
        ⟨0, by decide, by decide⟩ (ascii "bucket") (ascii "docs/a=b") [] 1000)
      (listParameters (ascii "docs/a=b") 1000) :=
  (carries_listObjectsRequest_iff sampleCrypto sample _ _ _ _ (by decide)).mpr (by decide)

/-- The objects below `R&D/` are not asked for. -/
theorem not_carries_listObjectsRequest_ampersand :
    ¬ Carries (listObjectsRequest sampleCrypto sample ⟨0, by decide, by decide⟩
        ⟨0, by decide, by decide⟩ (ascii "bucket") (ascii "R&D/") [] 1000)
      (listParameters (ascii "R&D/") 1000) := by
  rintro ⟨hsent, -⟩
  have hasked : (ascii "prefix", ascii "R&D/") ∈ listParameters (ascii "R&D/") 1000 := by decide
  have hquery : canonicalizeQueryString (listQuery (ascii "R&D/") [] 1000) =
      ascii "D%2F=&list-type=2&max-keys=1000&prefix=R" := by decide
  have hlost : (ascii "prefix", ascii "R&D/") ∉
      queryParameters (ascii "D%2F=&list-type=2&max-keys=1000&prefix=R") := by decide
  rw [← hquery] at hlost
  exact hlost (hsent.mem_iff.mpr hasked)

end S3Client

end ElioP2P.Storage
