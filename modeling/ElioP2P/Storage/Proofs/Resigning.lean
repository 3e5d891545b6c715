import ElioP2P.Storage.Proofs.CanonicalQuery
import ElioP2P.Storage.Proofs.SigningDates

/-!
# Signing a query again

`authenticate_request` answers a query string with a presigned URL of its own.
The original parameters go into the map after the new ones and as they stand in
the query, so they replace what has just been put there, an old signature stays,
and escapes are escaped once more.
-/

namespace ElioP2P.Storage

open ElioP2P.Library

/-! ## Queries of a URL -/

def HasQuery (url query : Bytes) : Prop :=
  35 ∉ url ∧ ∃ front, url = front ++ 63 :: query ∧ 63 ∉ front

def IsCanonicalQuery (query : Bytes) : Prop :=
  ∃ params : List (Bytes × Bytes), query = renderQuery (params.map encodePair) ∧
    (params.map fun param => percentEncode isUnreserved param.1).Pairwise (· ≤ ·)

def withoutParameter (name query : Bytes) : Bytes :=
  joinWith 38 ((query.splitOn 38).filter fun piece => percentDecode (splitFirst 61 piece).1 ≠ name)

theorem HasQuery.unique {url query query' : Bytes} (h : HasQuery url query)
    (h' : HasQuery url query') : query = query' := by
  obtain ⟨-, front, rfl, hfront⟩ := h
  obtain ⟨-, front', heq, hfront'⟩ := h'
  exact (append_first_inj hfront hfront' heq).2

theorem withoutParameter_renderQuery (name : Bytes) {params : List (Bytes × Bytes)}
    (hne : params ≠ []) :
    withoutParameter name (renderQuery (params.map encodePair)) =
      renderQuery ((params.filter fun param => param.1 ≠ name).map encodePair) := by
  have hpieces : ∀ piece ∈ (params.map encodePair).map renderPair, 38 ∉ piece := by
    intro piece hpiece
    obtain ⟨pair, hpair, rfl⟩ := List.mem_map.mp hpiece
    obtain ⟨plain, -, rfl⟩ := List.mem_map.mp hpair
    exact notMem_renderPair (separable_encodePair plain)
  have hsplit : (renderQuery (params.map encodePair)).splitOn 38 =
      (params.map encodePair).map renderPair := by
    rw [renderQuery, joinWith]
    exact List.splitOn_intercalate 38 hpieces (by simpa using hne)
  have hname : ∀ param : Bytes × Bytes,
      percentDecode (splitFirst 61 (renderPair (encodePair param))).1 = param.1 := by
    intro param
    have hpercent : isUnreserved 37 = false := by decide
    rw [renderPair, splitFirst_append (separable_encodePair param).2.1]
    exact percentDecode_percentEncode hpercent param.1
  rw [withoutParameter, hsplit, renderQuery, List.map_map, List.filter_map, List.map_map]
  simp only [Function.comp_def, hname]

theorem isCanonicalQuery_renderQuery_iff {params : List (Bytes × Bytes)} :
    IsCanonicalQuery (renderQuery (params.map encodePair)) ↔
      (params.map fun param => percentEncode isUnreserved param.1).Pairwise (· ≤ ·) := by
  constructor
  · rintro ⟨params', heq, hsorted⟩
    have hparams := queryParameters_renderQuery_encode params
    rw [heq, queryParameters_renderQuery_encode] at hparams
    rwa [← hparams]
  · exact fun hsorted => ⟨params, rfl, hsorted⟩

theorem IsCanonicalQuery.notMem {query : Bytes} (h : IsCanonicalQuery query) {b : UInt8}
    (hkept : (isUnreserved b || b == 61 || b == 38) = false) (hpercent : b ≠ 37)
    (hdigit : isUpperHexDigit b = false) : b ∉ query := by
  obtain ⟨params, rfl, -⟩ := h
  exact notMem_renderQuery_encode hkept hpercent hdigit params

/-- A query with a `?` in front of its last parameter is not canonical without
the parameters of that name, unless it has two of them. -/
theorem not_canonical_of_question {name front value : Bytes} (hname : 61 ∉ name ∧ 38 ∉ name)
    (hplain : percentDecode name = name) (hvalue : 38 ∉ value) (hquestion : 63 ∈ front) :
    ((queryParameters (front ++ 38 :: (name ++ 61 :: value))).map Prod.fst).count name ≠ 1 ∨
      ¬ IsCanonicalQuery (withoutParameter name (front ++ 38 :: (name ++ 61 :: value))) := by
  obtain ⟨piece, hpiece, hmem⟩ := exists_mem_splitOn hquestion (show (63 : UInt8) ≠ 38 by decide)
  by_cases hsame : percentDecode (splitFirst 61 piece).1 = name
  · refine .inl (Nat.ne_of_gt ?_)
    have hfilled : piece ∈ filledPieces 38 front := by
      refine List.mem_filter.mpr ⟨hpiece, ?_⟩
      rw [Bool.not_eq_true', List.isEmpty_eq_false_iff]
      exact List.ne_nil_of_mem hmem
    have hfirst : name ∈ (queryParameters front).map Prod.fst := by
      refine List.mem_map.mpr ⟨_, List.mem_map.mpr ⟨_, List.mem_map_of_mem hfilled, rfl⟩, hsame⟩
    have hsecond : name ∈ (queryParameters (name ++ 61 :: value)).map Prod.fst := by
      have hpair : Separable (name, value) := ⟨hname.2, hname.1, hvalue⟩
      rw [queryParameters, queryPairs_single hpair]
      simp [hplain]
    have hpos := List.count_pos_iff.mpr hfirst
    have hpos' := List.count_pos_iff.mpr hsecond
    rw [queryParameters, queryPairs_append, List.map_append, List.map_append, List.count_append]
    exact Nat.lt_of_lt_of_le (by decide : 1 < 1 + 1) (Nat.add_le_add hpos hpos')
  · refine .inr fun hcanonical => hcanonical.notMem (b := 63) (by decide) (by decide) (by decide) ?_
    refine mem_joinWith_of_mem (List.mem_filter.mpr ⟨?_, by simpa using hsame⟩) hmem
    rw [List.splitOn_append_cons_self]
    exact List.mem_append_left _ hpiece

namespace S3Client

/-! ## What is sent -/

def authenticationNames : List Bytes :=
  [ascii "X-Amz-Algorithm", ascii "X-Amz-Credential", ascii "X-Amz-Date", ascii "X-Amz-Expires",
    ascii "X-Amz-SignedHeaders", ascii "X-Amz-Signature"]

def presignedParams (client : S3Client) (amzDate dateStamp originalQuery : Bytes) :
    OrderedMap Bytes Bytes :=
  OrderedMap.empty.assignAll
    (client.presignParameters amzDate dateStamp 3600 ++ originalPairs originalQuery)

def resourceUrl (client : S3Client) (bucket key : Bytes) : Bytes :=
  client.protocol ++ client.hostHeader ++ (ascii "/" ++ bucket ++ ascii "/" ++ urlEncodePath key)

theorem map_fst_presignParameters (client : S3Client) (amzDate dateStamp : Bytes)
    (expiresInSeconds : UInt64) :
    (client.presignParameters amzDate dateStamp expiresInSeconds).map Prod.fst =
      authenticationNames.dropLast := rfl

theorem isUnreserved_of_mem_hexEncode {bytes : Bytes} {b : UInt8} (hb : b ∈ hexEncode bytes) :
    isUnreserved b = true := by
  have hdigit : ∀ nibble : Fin 16, isUnreserved (hexDigit (UInt8.ofNat nibble)) = true := by decide
  obtain ⟨d, -, hmem⟩ := List.mem_flatMap.mp hb
  have hd := d.toNat_lt
  have hnibble : ∀ nibble : UInt8, nibble.toNat < 16 → isUnreserved (hexDigit nibble) = true := by
    intro nibble hlt
    have h := hdigit ⟨nibble.toNat, hlt⟩
    rwa [UInt8.ofNat_toNat] at h
  simp only [List.mem_cons, List.not_mem_nil, or_false] at hmem
  rcases hmem with rfl | rfl
  · refine hnibble _ ?_
    rw [UInt8.toNat_div]
    change d.toNat / 16 < 16
    omega
  · refine hnibble _ ?_
    rw [UInt8.toNat_mod]
    exact Nat.mod_lt _ (by decide)

theorem renderQuery_signature {params : List (Bytes × Bytes)} (hne : params ≠ []) (mac : Bytes) :
    renderQuery (params.map encodePair) ++ 38 :: (ascii "X-Amz-Signature" ++ 61 :: hexEncode mac) =
      renderQuery ((params ++ [(ascii "X-Amz-Signature", hexEncode mac)]).map encodePair) := by
  have hname : percentEncode isUnreserved (ascii "X-Amz-Signature") = ascii "X-Amz-Signature" := by
    decide
  have hvalue : percentEncode isUnreserved (hexEncode mac) = hexEncode mac :=
    percentEncode_of_kept fun b => isUnreserved_of_mem_hexEncode
  have hpair : encodePair (ascii "X-Amz-Signature", hexEncode mac) =
      (ascii "X-Amz-Signature", hexEncode mac) := Prod.ext hname hvalue
  rw [List.map_append, List.map_singleton, hpair,
    renderQuery_append (by simpa using hne) (List.cons_ne_nil _ _), renderQuery_singleton]
  rfl

theorem authenticateRequest_url (crypto : Crypto) {client : S3Client}
    (hcredentials : client.hasCredentials = true) (first second : Instant)
    (method bucket key : Bytes) (originalHeaders : List (Bytes × Bytes)) {originalQuery : Bytes}
    (hquery : originalQuery ≠ []) :
    ∃ mac, (authenticateRequest crypto client first second method bucket key originalHeaders
        originalQuery).url =
      client.resourceUrl bucket key ++ 63 ::
        (renderQuery ((client.presignedParams (getCurrentTimeIso first) (getCurrentDate second)
          originalQuery).entries.map encodePair) ++
          38 :: (ascii "X-Amz-Signature" ++ 61 :: hexEncode mac)) := by
  have hfilled : (!originalQuery.isEmpty) = true := by
    rw [Bool.not_eq_true', List.isEmpty_eq_false_iff]
    exact hquery
  have hequals : ascii "&X-Amz-Signature=" = 38 :: (ascii "X-Amz-Signature" ++ [61]) := by decide
  have hmark : ascii "?" = [63] := by decide
  rw [authenticateRequest, if_pos hfilled,
    generatePresignedUrlInternal_of_hasCredentials crypto hcredentials]
  obtain ⟨mac, hurl⟩ : ∃ mac, (presign crypto client first second bucket key 3600
    originalQuery).url =
      client.resourceUrl bucket key ++ ascii "?" ++
        renderQuery ((client.presignedParams (getCurrentTimeIso first) (getCurrentDate second)
          originalQuery).entries.map encodePair) ++ ascii "&X-Amz-Signature=" ++ hexEncode mac :=
    ⟨_, rfl⟩
  refine ⟨mac, hurl.trans ?_⟩
  rw [hequals, hmark]
  simp only [List.append_assoc, List.cons_append, List.nil_append]

/-! ## The parameters of the URL -/

section SignedQuery

variable (client : S3Client) (amzDate dateStamp originalQuery mac : Bytes)

def signedQuery : Bytes :=
  renderQuery ((client.presignedParams amzDate dateStamp originalQuery).entries.map encodePair) ++
    38 :: (ascii "X-Amz-Signature" ++ 61 :: hexEncode mac)

theorem mem_presignedParams_iff {param : Bytes × Bytes} :
    param ∈ (client.presignedParams amzDate dateStamp originalQuery).entries ↔
      (lastValue (originalPairs originalQuery) param.1).or
        (lastValue (client.presignParameters amzDate dateStamp 3600) param.1) = some param.2 := by
  rw [← lastValue_append]
  exact OrderedMap.mem_assignAll_iff _

theorem mem_presignedNames_iff (name : Bytes) :
    name ∈ (client.presignedParams amzDate dateStamp originalQuery).entries.map Prod.fst ↔
      name ∈ authenticationNames.dropLast ∨ name ∈ (originalPairs originalQuery).map Prod.fst := by
  rw [presignedParams, OrderedMap.mem_keys_assignAll_iff, List.map_append, List.mem_append,
    map_fst_presignParameters]

theorem presignedParams_ne_nil :
    (client.presignedParams amzDate dateStamp originalQuery).entries ≠ [] := by
  intro hnil
  have hmem := (mem_presignedNames_iff client amzDate dateStamp originalQuery
    (ascii "X-Amz-Algorithm")).mpr (.inl List.mem_cons_self)
  rw [hnil] at hmem
  cases hmem

theorem signedQuery_eq :
    signedQuery client amzDate dateStamp originalQuery mac =
      renderQuery (((client.presignedParams amzDate dateStamp originalQuery).entries ++
        [(ascii "X-Amz-Signature", hexEncode mac)]).map encodePair) :=
  renderQuery_signature (presignedParams_ne_nil client amzDate dateStamp originalQuery) mac

theorem queryParameters_signedQuery :
    queryParameters (signedQuery client amzDate dateStamp originalQuery mac) =
      (client.presignedParams amzDate dateStamp originalQuery).entries ++
        [(ascii "X-Amz-Signature", hexEncode mac)] := by
  rw [signedQuery_eq, queryParameters_renderQuery_encode]

theorem count_signedQuery {name : Bytes} (hname : name ∈ authenticationNames) :
    ((queryParameters (signedQuery client amzDate dateStamp originalQuery mac)).map Prod.fst).count
        name = 1 ↔
      (name = ascii "X-Amz-Signature" → name ∉ (originalPairs originalQuery).map Prod.fst) := by
  have hkeys := mem_presignedNames_iff client amzDate dateStamp originalQuery name
  have hnodup := (client.presignedParams amzDate dateStamp originalQuery).nodup_keys
  rw [queryParameters_signedQuery, List.map_append, List.count_append]
  by_cases hsignature : name = ascii "X-Amz-Signature"
  · subst hsignature
    have hfresh : ascii "X-Amz-Signature" ∉ authenticationNames.dropLast := by decide
    have hlast : ([(ascii "X-Amz-Signature", hexEncode mac)].map Prod.fst).count
        (ascii "X-Amz-Signature") = 1 := List.count_singleton_self
    rw [hlast, Nat.add_eq_right, List.count_eq_zero, hkeys]
    simp [hfresh]
  · have hfixed : name ∈ authenticationNames.dropLast := by
      have hsplit : authenticationNames =
          authenticationNames.dropLast ++ [ascii "X-Amz-Signature"] := rfl
      rw [hsplit] at hname
      rcases List.mem_append.mp hname with hname | hname
      · exact hname
      · exact absurd (List.mem_singleton.mp hname) hsignature
    have hlast : ([(ascii "X-Amz-Signature", hexEncode mac)].map Prod.fst).count name = 0 :=
      List.count_eq_zero.mpr (by simpa using hsignature)
    rw [hlast, List.count_eq_one_of_mem hnodup (hkeys.mpr (.inl hfixed))]
    simp [hsignature]

end SignedQuery

/-! ## Signed anew -/

def givenParams (originalQuery : Bytes) : List (Bytes × Bytes) :=
  (originalPairs originalQuery).map fun pair => (percentDecode pair.1, percentDecode pair.2)

/-- A query that is signed with the credentials of the client and else asks for
what the original asks for. -/
structure ResignedQuery (client : S3Client) (amzDate originalQuery query : Bytes) : Prop where
  once : ∀ name ∈ authenticationNames, ((queryParameters query).map Prod.fst).count name = 1
  credential : ∀ value, (ascii "X-Amz-Credential", value) ∈ queryParameters query →
    client.accessKey ++ ascii "/" <+: value
  date : ∀ value, (ascii "X-Amz-Date", value) ∈ queryParameters query → value = amzDate
  expires : ∀ value, (ascii "X-Amz-Expires", value) ∈ queryParameters query → value = ascii "3600"
  kept : ∀ param ∈ givenParams originalQuery, param.1 ∉ authenticationNames →
    param ∈ queryParameters query
  canonical : IsCanonicalQuery (withoutParameter (ascii "X-Amz-Signature") query)

def paramNames (originalQuery : Bytes) : List Bytes :=
  authenticationNames.dropLast ++ (originalPairs originalQuery).map Prod.fst

/-- An original query that does not get in the way: it has no signature, what it
says about the credentials is right, names and values stay what they are when
they are decoded, and encoding the names does not change their order. -/
structure Resignable (client : S3Client) (amzDate originalQuery : Bytes) : Prop where
  unsigned : ascii "X-Amz-Signature" ∉ (originalPairs originalQuery).map Prod.fst
  credential : ∀ value, lastValue (originalPairs originalQuery) (ascii "X-Amz-Credential") =
    some value → client.accessKey ++ ascii "/" <+: value
  date : ∀ value, lastValue (originalPairs originalQuery) (ascii "X-Amz-Date") = some value →
    value = amzDate
  expires : ∀ value, lastValue (originalPairs originalQuery) (ascii "X-Amz-Expires") = some value →
    value = ascii "3600"
  kept : ∀ param ∈ givenParams originalQuery, param.1 ∉ authenticationNames →
    lastValue (originalPairs originalQuery) param.1 = some param.2
  ordered : ∀ name ∈ paramNames originalQuery, ∀ name' ∈ paramNames originalQuery, name < name' →
    percentEncode isUnreserved name ≤ percentEncode isUnreserved name'

theorem lastValue_presignParameters (client : S3Client) (amzDate dateStamp : Bytes)
    {name value : Bytes}
    (hmem : (name, value) ∈ client.presignParameters amzDate dateStamp 3600) :
    lastValue (client.presignParameters amzDate dateStamp 3600) name = some value := by
  have hnodup : authenticationNames.dropLast.Nodup := by decide
  rw [← map_fst_presignParameters client amzDate dateStamp 3600] at hnodup
  exact (lastValue_eq_some_iff hnodup).mpr hmem

theorem mem_signedQuery_iff (client : S3Client) (amzDate dateStamp originalQuery mac : Bytes)
    {name value fresh : Bytes} (hname : name ≠ ascii "X-Amz-Signature")
    (hfresh : lastValue (client.presignParameters amzDate dateStamp 3600) name = some fresh) :
    (name, value) ∈ queryParameters (signedQuery client amzDate dateStamp originalQuery mac) ↔
      (lastValue (originalPairs originalQuery) name).getD fresh = value := by
  have hnot : (name, value) ∉ [(ascii "X-Amz-Signature", hexEncode mac)] := by
    rw [List.mem_singleton]
    exact fun h => hname (Prod.mk.inj h).1
  rw [queryParameters_signedQuery, List.mem_append, or_iff_left hnot, mem_presignedParams_iff,
    hfresh,
    Option.or_some, Option.some.injEq]

theorem forall_mem_signedQuery_iff (client : S3Client) (amzDate dateStamp originalQuery mac : Bytes)
    {name fresh : Bytes} (hname : name ≠ ascii "X-Amz-Signature")
    (hfresh : (name, fresh) ∈ client.presignParameters amzDate dateStamp 3600)
    (good : Bytes → Prop) (hgood : good fresh) :
    (∀ value, (name, value) ∈ queryParameters
      (signedQuery client amzDate dateStamp originalQuery mac) →
        good value) ↔
      ∀ value, lastValue (originalPairs originalQuery) name = some value → good value := by
  simp only [mem_signedQuery_iff client amzDate dateStamp originalQuery mac hname
    (lastValue_presignParameters client amzDate dateStamp hfresh), forall_eq']
  cases hlast : lastValue (originalPairs originalQuery) name with
  | none => simp [hgood]
  | some value => simp

theorem canonical_signedQuery_iff (client : S3Client) (amzDate dateStamp originalQuery mac : Bytes)
    (hunsigned : ascii "X-Amz-Signature" ∉ (originalPairs originalQuery).map Prod.fst) :
    IsCanonicalQuery (withoutParameter (ascii "X-Amz-Signature")
        (signedQuery client amzDate dateStamp originalQuery mac)) ↔
      ∀ name ∈ paramNames originalQuery, ∀ name' ∈ paramNames originalQuery, name < name' →
        percentEncode isUnreserved name ≤ percentEncode isUnreserved name' := by
  have hfresh : ascii "X-Amz-Signature" ∉ authenticationNames.dropLast := by decide
  have hkeys := mem_presignedNames_iff client amzDate dateStamp originalQuery
  have hsorted := (client.presignedParams amzDate dateStamp originalQuery).sorted
  rw [signedQuery_eq, withoutParameter_renderQuery _ (by simp)]
  generalize (client.presignedParams amzDate dateStamp originalQuery).entries = entries at *
  have hfilter : (entries ++ [(ascii "X-Amz-Signature", hexEncode mac)]).filter
      (fun param => param.1 ≠ ascii "X-Amz-Signature") = entries := by
    rw [List.filter_append, List.filter_eq_self.mpr]
    · simp
    · intro param hparam
      rw [decide_eq_true_eq]
      intro hname
      rcases (hkeys _).mp (List.mem_map_of_mem hparam) with h | h
      · exact hfresh (hname ▸ h)
      · exact hunsigned (hname ▸ h)
  have hnames : ∀ name, name ∈ entries.map Prod.fst ↔ name ∈ paramNames originalQuery := by
    intro name
    rw [hkeys, paramNames, List.mem_append]
  have hincreasing : (entries.map Prod.fst).Pairwise (· < ·) := List.pairwise_map.mpr hsorted
  have hencode : entries.map (fun param => percentEncode isUnreserved param.1) =
      (entries.map Prod.fst).map (percentEncode isUnreserved) := by
    rw [List.map_map]
    rfl
  rw [hfilter, isCanonicalQuery_renderQuery_iff, hencode, List.pairwise_map,
    pairwise_iff_of_increasing hincreasing]
  simp only [hnames]

theorem kept_signedQuery_iff (client : S3Client) (amzDate dateStamp originalQuery mac : Bytes)
    {param : Bytes × Bytes} (hother : param.1 ∉ authenticationNames) :
    param ∈ queryParameters (signedQuery client amzDate dateStamp originalQuery mac) ↔
      lastValue (originalPairs originalQuery) param.1 = some param.2 := by
  have hnot : param ∉ [(ascii "X-Amz-Signature", hexEncode mac)] := by
    rw [List.mem_singleton]
    rintro rfl
    exact hother (List.mem_of_getLast? rfl)
  have hnone : lastValue (client.presignParameters amzDate dateStamp 3600) param.1 = none := by
    rw [lastValue_eq_none_iff, map_fst_presignParameters]
    exact fun hmem => hother ((List.dropLast_sublist _).subset hmem)
  rw [queryParameters_signedQuery, List.mem_append, or_iff_left hnot, mem_presignedParams_iff,
    hnone,
    Option.or_none]

theorem resignedQuery_signedQuery_iff (client : S3Client)
    (amzDate dateStamp originalQuery mac : Bytes) :
    ResignedQuery client amzDate originalQuery
        (signedQuery client amzDate dateStamp originalQuery mac) ↔
      Resignable client amzDate originalQuery := by
  have hnames : ascii "X-Amz-Credential" ≠ ascii "X-Amz-Signature" ∧
      ascii "X-Amz-Date" ≠ ascii "X-Amz-Signature" ∧
      ascii "X-Amz-Expires" ≠ ascii "X-Amz-Signature" := by decide
  have hcredential := forall_mem_signedQuery_iff client amzDate dateStamp originalQuery mac hnames.1
    (List.mem_of_getElem? (i := 1) rfl)
    (fun value => client.accessKey ++ ascii "/" <+: value) (List.prefix_append _ _)
  have hdate := forall_mem_signedQuery_iff client amzDate dateStamp originalQuery mac hnames.2.1
    (List.mem_of_getElem? (i := 2) rfl) (fun value => value = amzDate) rfl
  have hexpires := forall_mem_signedQuery_iff client amzDate dateStamp originalQuery mac hnames.2.2
    (List.mem_of_getElem? (i := 3) rfl) (fun value => value = ascii "3600") (by decide)
  have hkept : ∀ param : Bytes × Bytes, param.1 ∉ authenticationNames →
      (param ∈ queryParameters (signedQuery client amzDate dateStamp originalQuery mac) ↔
        lastValue (originalPairs originalQuery) param.1 = some param.2) := fun param hother =>
    kept_signedQuery_iff client amzDate dateStamp originalQuery mac hother
  constructor
  · intro h
    have hunsigned : ascii "X-Amz-Signature" ∉ (originalPairs originalQuery).map Prod.fst :=
      (count_signedQuery client amzDate dateStamp originalQuery mac (List.mem_of_getLast? rfl)).mp
        (h.once _ (List.mem_of_getLast? rfl)) rfl
    exact
      { unsigned := hunsigned
        credential := hcredential.mp h.credential
        date := hdate.mp h.date
        expires := hexpires.mp h.expires
        kept := fun param hparam hother => (hkept param hother).mp (h.kept param hparam hother)
        ordered := (canonical_signedQuery_iff client amzDate dateStamp originalQuery
          mac hunsigned).mp
          h.canonical }
  · intro h
    exact
      { once := fun name hname =>
          (count_signedQuery client amzDate dateStamp originalQuery mac hname).mpr fun hsignature =>
            hsignature ▸ h.unsigned
        credential := hcredential.mpr h.credential
        date := hdate.mpr h.date
        expires := hexpires.mpr h.expires
        kept := fun param hparam hother => (hkept param hother).mpr (h.kept param hparam hother)
        canonical := (canonical_signedQuery_iff client amzDate dateStamp originalQuery mac
          h.unsigned).mpr h.ordered }

/-! ## The URL -/

def Unmarked (text : Bytes) : Prop := 63 ∉ text ∧ 35 ∉ text

/-- A mark in front of the query comes from the host or the bucket. -/
theorem mem_resourceUrl_iff (client : S3Client) (bucket key : Bytes) (b : UInt8)
    (hb : b = 63 ∨ b = 35) :
    b ∈ client.resourceUrl bucket key ↔ b ∈ client.hostHeader ∨ b ∈ bucket := by
  have hprotocol : b ∉ client.protocol := by
    have hhttps : 63 ∉ ascii "https://" ∧ 35 ∉ ascii "https://" := by decide
    have hhttp : 63 ∉ ascii "http://" ∧ 35 ∉ ascii "http://" := by decide
    unfold protocol
    split
    · rcases hb with rfl | rfl
      · exact hhttps.1
      · exact hhttps.2
    · rcases hb with rfl | rfl
      · exact hhttp.1
      · exact hhttp.2
  have hslash : b ∉ ascii "/" := by
    rcases hb with rfl | rfl <;> decide
  have hkey : b ∉ urlEncodePath key := by
    rcases hb with rfl | rfl
    · exact notMem_percentEncode (by decide) (by decide) (by decide) key
    · exact notMem_percentEncode (by decide) (by decide) (by decide) key
  simp only [resourceUrl, List.mem_append, hprotocol, hslash, hkey, false_or, or_false]

theorem unmarked_signedQuery (client : S3Client) (amzDate dateStamp originalQuery mac : Bytes) :
    35 ∉ signedQuery client amzDate dateStamp originalQuery mac := by
  rw [signedQuery_eq]
  intro hmem
  rcases (percentEncoded_renderQuery _).mem hmem with h | h | h <;> cases h

theorem hasQuery_signedQuery {client : S3Client} {bucket : Bytes}
    (hhost : Unmarked client.hostHeader)
    (hbucket : Unmarked bucket) (key amzDate dateStamp originalQuery mac : Bytes) :
    HasQuery
      (client.resourceUrl bucket key ++ 63 :: signedQuery client amzDate dateStamp
        originalQuery mac)
      (signedQuery client amzDate dateStamp originalQuery mac) := by
  have hmark := mem_resourceUrl_iff client bucket key
  have hfragment := unmarked_signedQuery client amzDate dateStamp originalQuery mac
  refine ⟨?_, _, rfl, ?_⟩
  · simp only [List.mem_append, List.mem_cons, hmark 35 (.inr rfl), hhost.2, hbucket.2, hfragment,
      or_self, or_false]
    decide
  · rw [hmark 63 (.inl rfl), not_or]
    exact ⟨hhost.1, hbucket.1⟩

/-- A `?` in front of the query begins it early, and then it is not the query of
a signed URL. -/
theorem notMem_of_resigned {client : S3Client}
    {bucket key amzDate dateStamp originalQuery mac query :
    Bytes} (hhas : HasQuery (client.resourceUrl bucket key ++ 63 ::
      signedQuery client amzDate dateStamp originalQuery mac) query)
    (hresigned : ResignedQuery client amzDate originalQuery query) :
    63 ∉ client.resourceUrl bucket key := by
  intro hmem
  obtain ⟨-, front, heq, hfront⟩ := hhas
  obtain ⟨before, behind, hsplit, hbefore⟩ := List.eq_append_cons_of_mem hmem
  rw [hsplit, List.append_assoc, List.cons_append] at heq
  obtain ⟨-, rfl⟩ := append_first_inj hbefore hfront heq
  have hquestion : 63 ∈ behind ++ 63 :: renderQuery
      ((client.presignedParams amzDate dateStamp originalQuery).entries.map encodePair) := by simp
  have hname : 61 ∉ ascii "X-Amz-Signature" ∧ 38 ∉ ascii "X-Amz-Signature" := by decide
  have hvalue : 38 ∉ hexEncode mac := fun hmem => absurd (isUnreserved_of_mem_hexEncode hmem)
    (by decide)
  rcases not_canonical_of_question hname (by decide) hvalue hquestion with h | h
  · refine h ?_
    have honce := hresigned.once _ (List.mem_of_getLast? rfl)
    rwa [signedQuery, ← List.cons_append, ← List.append_assoc] at honce
  · refine h ?_
    have hcanonical := hresigned.canonical
    rwa [signedQuery, ← List.cons_append, ← List.append_assoc] at hcanonical

/-- `authenticate_request` signs a query anew exactly if neither host nor bucket
end the path early and the original query does not get in the way. -/
theorem resigned_authenticateRequest_iff (crypto : Crypto) {client : S3Client}
    (hcredentials : client.hasCredentials = true) (first second : Instant)
    (method bucket key : Bytes) (originalHeaders : List (Bytes × Bytes)) {originalQuery : Bytes}
    (hquery : originalQuery ≠ []) :
    (∃ query, HasQuery (authenticateRequest crypto client first second method bucket key
          originalHeaders originalQuery).url query ∧
        ResignedQuery client (getCurrentTimeIso first) originalQuery query) ↔
      Unmarked client.hostHeader ∧ Unmarked bucket ∧
        Resignable client (getCurrentTimeIso first) originalQuery := by
  obtain ⟨mac, hurl⟩ := authenticateRequest_url crypto hcredentials first second method bucket key
    originalHeaders hquery
  have hmark := mem_resourceUrl_iff client bucket key
  have hsigned := resignedQuery_signedQuery_iff client (getCurrentTimeIso first)
    (getCurrentDate second) originalQuery mac
  rw [hurl]
  change (∃ query, HasQuery (client.resourceUrl bucket key ++ 63 ::
    signedQuery client (getCurrentTimeIso first) (getCurrentDate second) originalQuery mac) query ∧
      _) ↔ _
  constructor
  · rintro ⟨query, hhas, hresigned⟩
    have hquestion := notMem_of_resigned hhas hresigned
    obtain rfl := hhas.unique ⟨hhas.1, _, rfl, hquestion⟩
    have hhash : 35 ∉ client.resourceUrl bucket key := fun hmem =>
      hhas.1 (List.mem_append_left _ hmem)
    rw [hmark 63 (.inl rfl), not_or] at hquestion
    rw [hmark 35 (.inr rfl), not_or] at hhash
    exact ⟨⟨hquestion.1, hhash.1⟩, ⟨hquestion.2, hhash.2⟩, hsigned.mp hresigned⟩
  · rintro ⟨hhost, hbucket, hresignable⟩
    exact ⟨_, hasQuery_signedQuery hhost hbucket key _ _ originalQuery mac, hsigned.mpr hresignable⟩

/-- The query of a listing is signed anew. -/
theorem resigned_authenticateRequest_listing :
    ∃ query, HasQuery (authenticateRequest sampleCrypto sample midnight midnight (ascii "GET")
        (ascii "bucket") [] [] (ascii "list-type=2&prefix=a")).url query ∧
      ResignedQuery sample (getCurrentTimeIso midnight) (ascii "list-type=2&prefix=a") query := by
  have hunmarked : Unmarked sample.hostHeader ∧ Unmarked (ascii "bucket") := by
    unfold Unmarked
    decide
  have hresignable : Resignable sample (getCurrentTimeIso midnight)
      (ascii "list-type=2&prefix=a") := by
    have hnone : ∀ name ∈ authenticationNames,
        lastValue (originalPairs (ascii "list-type=2&prefix=a")) name = none := by decide
    exact
      { unsigned := by decide
        credential := by simp [hnone (ascii "X-Amz-Credential") (by decide)]
        date := by simp [hnone (ascii "X-Amz-Date") (by decide)]
        expires := by simp [hnone (ascii "X-Amz-Expires") (by decide)]
        kept := by decide
        ordered := by decide }
  exact (resigned_authenticateRequest_iff sampleCrypto rfl midnight midnight _ _ _ _
    (by decide)).mpr ⟨hunmarked.1, hunmarked.2, hresignable⟩

/-- A query with a signature gets a second one. -/
theorem not_resigned_authenticateRequest_signed :
    ¬ ∃ query, HasQuery (authenticateRequest sampleCrypto sample midnight midnight (ascii "GET")
          (ascii "bucket") (ascii "key") [] (ascii "X-Amz-Signature=ab")).url query ∧
        ResignedQuery sample (getCurrentTimeIso midnight) (ascii "X-Amz-Signature=ab") query := by
  have hcredentials : sample.hasCredentials = true := rfl
  have hfilled : ascii "X-Amz-Signature=ab" ≠ [] := by decide
  obtain ⟨mac, hurl⟩ := authenticateRequest_url sampleCrypto hcredentials midnight midnight
    (ascii "GET") (ascii "bucket") (ascii "key") [] hfilled
  have hhost : Unmarked sample.hostHeader ∧ Unmarked (ascii "bucket") := by
    unfold Unmarked
    decide
  rintro ⟨query, hhas, hresigned⟩
  rw [hurl] at hhas
  obtain rfl := hhas.unique (hasQuery_signedQuery hhost.1 hhost.2 _ _ _ _ mac)
  have hunsigned := ((resignedQuery_signedQuery_iff _ _ _ _ _).mp hresigned).unsigned
  exact hunsigned (by decide)

end S3Client

end ElioP2P.Storage
