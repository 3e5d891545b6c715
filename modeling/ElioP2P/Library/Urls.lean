import ElioP2P.Library.Queries

/-!
# URLs

`scheme://authority/path?query`.  A URL is cut at its first `?`, then behind its
scheme, and what is left at its first `/`.  A `#` would begin a fragment, which
is not sent.
-/

namespace ElioP2P.Library

structure Url where
  authority : Bytes
  path : Bytes
  query : Bytes
  deriving DecidableEq

def cutAuthority (text query : Bytes) : Url :=
  { authority := text.takeWhile (· != 47)
    path := text.dropWhile (· != 47)
    query := query }

def splitUrl (url : Bytes) : Url :=
  let (front, query) := splitFirst 63 url
  cutAuthority ((splitFirst 58 front).2.drop 2) query

def hostOf (authority : Bytes) : Bytes :=
  (authority.reverse.takeWhile (· != 64)).reverse.takeWhile (· != 58)

/-- A URL that is the path and the parameters, once both are decoded. -/
structure NamesObject (url path : Bytes) (params : List (Bytes × Bytes)) : Prop where
  whole : 35 ∉ url
  path : percentDecode (splitUrl url).path = path
  query : (queryParameters (splitUrl url).query).Perm params

/-- `https` and `http` hold none of the marks that a URL is cut at. -/
def IsScheme (scheme : Bytes) : Prop := 58 ∉ scheme ∧ 63 ∉ scheme ∧ 35 ∉ scheme

theorem splitUrl_question {scheme : Bytes} (hscheme : IsScheme scheme) {front : Bytes}
    (hfront : 63 ∉ front) (query : Bytes) :
    splitUrl (scheme ++ 58 :: 47 :: 47 :: (front ++ 63 :: query)) = cutAuthority front query := by
  have hmark : 63 ∉ scheme ++ 58 :: 47 :: 47 :: front := by
    simpa using ⟨hscheme.2.1, hfront⟩
  have hsplit := splitFirst_append hmark query
  simp only [List.append_assoc, List.cons_append] at hsplit
  simp only [splitUrl, hsplit, splitFirst_append hscheme.1, List.drop_succ_cons, List.drop_zero]

theorem cutAuthority_append {authority : Bytes} (hauthority : 47 ∉ authority) (path query : Bytes) :
    cutAuthority (authority ++ 47 :: path) query = ⟨authority, 47 :: path, query⟩ := by
  obtain ⟨htake, hdrop⟩ := split_separator hauthority
    (.inr (List.head?_cons (a := (47 : UInt8)) (l := path)))
  rw [cutAuthority, htake, hdrop]

theorem question_notMem_of_perm {scheme : Bytes} (hscheme : IsScheme scheme) {front : Bytes}
    {first : Bytes × Bytes} (hfirst : 63 ∉ first.1 ∧ 63 ∉ first.2) {rest : List (Bytes × Bytes)}
    (h : (queryParameters (splitUrl (scheme ++ 58 :: 47 :: 47 :: (front ++
      63 :: renderQuery ((first :: rest).map encodePair)))).query).Perm (first :: rest)) :
    63 ∉ front := by
  intro hmem
  obtain ⟨before, behind, rfl, hbefore⟩ := List.eq_append_cons_of_mem hmem
  have hmark : (63 : UInt8) ∈ behind ++ [63] := by simp
  have hno := not_perm_of_mem_front (by decide) (by decide) (by decide) (by decide)
    hmark hfirst rest
  rw [List.append_assoc, List.cons_append, splitUrl_question hscheme hbefore] at h
  rw [List.append_assoc] at hno
  exact hno h

theorem namesObject_encoded_iff {scheme : Bytes} (hscheme : IsScheme scheme) (front path : Bytes)
    {first : Bytes × Bytes} (hfirst : 63 ∉ first.1 ∧ 63 ∉ first.2) (rest : List (Bytes × Bytes)) :
    NamesObject (scheme ++ 58 :: 47 :: 47 :: (front ++
        63 :: renderQuery ((first :: rest).map encodePair))) path (first :: rest) ↔
      35 ∉ front ∧ 63 ∉ front ∧
        percentDecode (cutAuthority front (renderQuery ((first :: rest).map encodePair))).path =
          path := by
  have hperm := @question_notMem_of_perm _ hscheme front _ hfirst rest
  have hquery : 35 ∉ renderQuery ((first :: rest).map encodePair) :=
    notMem_renderQuery_encode (by decide) (by decide) (by decide) _
  have hparameters := queryParameters_renderQuery_encode (first :: rest)
  generalize renderQuery ((first :: rest).map encodePair) = query at *
  have hwhole : 35 ∉ scheme ++ 58 :: 47 :: 47 :: (front ++ 63 :: query) ↔ 35 ∉ front := by
    simp [hscheme.2.2, hquery]
  constructor
  · rintro ⟨hsharp, hnamed, hquery⟩
    have hfront := hperm hquery
    rw [splitUrl_question hscheme hfront] at hnamed
    exact ⟨hwhole.mp hsharp, hfront, hnamed⟩
  · rintro ⟨hsharp, hfront, hnamed⟩
    have hsplit := splitUrl_question hscheme hfront query
    refine ⟨hwhole.mpr hsharp, ?_, ?_⟩
    · rw [hsplit]
      exact hnamed
    · rw [hsplit]
      exact List.Perm.of_eq hparameters

/-- A path of two parts, of which only the second is encoded, decodes to them
exactly if it begins behind the host and the first part has no escapes. -/
theorem percentDecode_path_iff {host first encoded second : Bytes}
    (hsecond : percentDecode encoded = second) (query : Bytes) :
    percentDecode (cutAuthority (host ++ 47 :: (first ++ 47 :: encoded)) query).path =
        47 :: (first ++ 47 :: second) ↔
      47 ∉ host ∧ ¬ HasEscape first := by
  have hdecode : ∀ front : Bytes, percentDecode (47 :: (front ++ 47 :: encoded)) =
      47 :: (percentDecode front ++ 47 :: second) := by
    intro front
    rw [percentDecode_cons (by decide), percentDecode_append_cons (by decide) (by decide), hsecond]
  have hinj : ∀ front : Bytes, 47 :: (percentDecode front ++ 47 :: second) =
      47 :: (first ++ 47 :: second) ↔ percentDecode front = first := by
    intro front
    rw [List.cons_inj_right, List.append_left_inj]
  by_cases hhost : 47 ∈ host
  · obtain ⟨before, behind, rfl, hbefore⟩ := List.eq_append_cons_of_mem hhost
    refine iff_of_false ?_ fun h => h.1 hhost
    have hlong := hdecode (behind ++ 47 :: first)
    rw [List.append_assoc, List.cons_append] at hlong ⊢
    rw [cutAuthority_append hbefore, hlong, hinj, percentDecode_append_cons (by decide) (by decide)]
    exact append_percentDecode_ne (by decide) (by decide) (percentDecode behind) first
  · rw [cutAuthority_append hhost, hdecode, hinj, percentDecode_eq_self_iff]
    exact (and_iff_right hhost).symm

/-! ## Hosts -/

theorem length_hostOf_le (authority : Bytes) : (hostOf authority).length ≤ authority.length := by
  have hport := (List.takeWhile_sublist (· != (58 : UInt8))
    (l := (authority.reverse.takeWhile (· != 64)).reverse)).length_le
  have huser := (List.takeWhile_sublist (· != (64 : UInt8)) (l := authority.reverse)).length_le
  rw [List.length_reverse] at hport huser
  exact hport.trans huser

theorem hostOf_eq_self_iff {authority : Bytes} :
    hostOf authority = authority ↔ 64 ∉ authority ∧ 58 ∉ authority := by
  constructor
  · intro h
    refine ⟨fun huser => ?_, fun hport => ?_⟩
    · have hmem : (64 : UInt8) ∈ hostOf authority := by rwa [h]
      have hmem := List.mem_reverse.mp ((List.takeWhile_sublist _).subset hmem)
      simpa using List.mem_takeWhile_imp hmem
    · have hmem : (58 : UInt8) ∈ hostOf authority := by rwa [h]
      simpa using List.mem_takeWhile_imp hmem
  · rintro ⟨huser, hport⟩
    have hnone : ∀ {sep : UInt8} {text : Bytes}, sep ∉ text → text.takeWhile (· != sep) = text := by
      intro sep text hsep
      have h := (split_separator hsep (.inl rfl)).1
      rwa [List.append_nil] at h
    have huser' : authority.reverse.takeWhile (· != 64) = authority.reverse :=
      hnone fun h => huser (List.mem_reverse.mp h)
    rw [hostOf, huser', List.reverse_reverse, hnone hport]

/-- The host is what stands behind the scheme only as far as no mark is in it. -/
theorem notMem_of_hostOf_eq {scheme : Bytes} (hscheme : IsScheme scheme) {host rest query : Bytes}
    (h : hostOf (splitUrl (scheme ++ 58 :: 47 :: 47 ::
      (host ++ (rest ++ 63 :: query)))).authority = host) : 63 ∉ host ∧ 47 ∉ host := by
  have hshort : ∀ {front : Bytes}, front.length < host.length →
      hostOf (cutAuthority front query).authority ≠ host := by
    intro front hlt heq
    have hle := length_hostOf_le (cutAuthority front query).authority
    have hfront := (List.takeWhile_sublist (· != (47 : UInt8)) (l := front)).length_le
    rw [heq] at hle
    exact Nat.not_le.mpr hlt (hle.trans hfront)
  have hquestion : 63 ∉ host := by
    intro hmem
    obtain ⟨before, behind, rfl, hbefore⟩ := List.eq_append_cons_of_mem hmem
    rw [List.append_assoc, List.cons_append, splitUrl_question hscheme hbefore] at h
    exact hshort (by simp) h
  refine ⟨hquestion, fun hmem => ?_⟩
  obtain ⟨path, tail, htail, hpath⟩ :=
    List.eq_append_cons_of_mem (show 63 ∈ rest ++ 63 :: query by simp)
  have hfront : 63 ∉ host ++ path := by simpa using ⟨hquestion, hpath⟩
  rw [htail, ← List.append_assoc, splitUrl_question hscheme hfront] at h
  obtain ⟨before, behind, rfl, hbefore⟩ := List.eq_append_cons_of_mem hmem
  rw [List.append_assoc, List.cons_append, cutAuthority_append hbefore] at h
  have hlt : before.length < (before ++ 47 :: behind).length := by simp
  refine hshort hlt ?_
  have hnone := (split_separator hbefore (.inl rfl)).1
  rw [List.append_nil] at hnone
  rw [cutAuthority, hnone]
  exact h

theorem namesObject_raw_iff {scheme : Bytes} (hscheme : IsScheme scheme) (host key query : Bytes)
    (params : List (Bytes × Bytes)) :
    (NamesObject (scheme ++ 58 :: 47 :: 47 :: (host ++ (47 :: key ++ 63 :: query))) (47 :: key)
        params ∧
      hostOf (splitUrl (scheme ++ 58 :: 47 :: 47 ::
        (host ++ (47 :: key ++ 63 :: query)))).authority = host) ↔
      (∀ mark ∈ ascii "#/:?@", mark ∉ host) ∧ (35 ∉ key ∧ 63 ∉ key ∧ ¬ HasEscape key) ∧
        35 ∉ query ∧ (queryParameters query).Perm params := by
  have hmarks : (∀ mark ∈ ascii "#/:?@", mark ∉ host) ↔
      35 ∉ host ∧ 47 ∉ host ∧ 58 ∉ host ∧ 63 ∉ host ∧ 64 ∉ host := by
    have hlist : ascii "#/:?@" = [35, 47, 58, 63, 64] := by decide
    rw [hlist]
    simp
  have hwhole : 35 ∉ scheme ++ 58 :: 47 :: 47 :: (host ++ (47 :: key ++ 63 :: query)) ↔
      35 ∉ host ∧ 35 ∉ key ∧ 35 ∉ query := by
    simp [hscheme.2.2]
  -- The URL is cut where it has been put together, if nothing cuts it before.
  have hcut : 63 ∉ host → 47 ∉ host → 63 ∉ key →
      splitUrl (scheme ++ 58 :: 47 :: 47 :: (host ++ (47 :: key ++ 63 :: query))) =
        ⟨host, 47 :: key, query⟩ := by
    intro hquestion hslash hkey
    have hfront : 63 ∉ host ++ 47 :: key := by simpa using ⟨hquestion, hkey⟩
    rw [← List.append_assoc, splitUrl_question hscheme hfront, cutAuthority_append hslash]
  have hpath : percentDecode (47 :: key) = 47 :: key ↔ ¬ HasEscape key := by
    rw [percentDecode_cons (by decide), List.cons_inj_right, percentDecode_eq_self_iff]
  rw [hmarks]
  constructor
  · rintro ⟨⟨hsharp, hnamed, hquery⟩, hhost⟩
    obtain ⟨hquestion, hslash⟩ := notMem_of_hostOf_eq hscheme hhost
    obtain ⟨hsharpHost, hsharpKey, hsharpQuery⟩ := hwhole.mp hsharp
    have hkey : 63 ∉ key := by
      intro hmem
      obtain ⟨front, back, rfl, hfront⟩ := List.eq_append_cons_of_mem hmem
      have hbefore : 63 ∉ host ++ 47 :: front := by simpa using ⟨hquestion, hfront⟩
      have hsplit : host ++ (47 :: (front ++ 63 :: back) ++ 63 :: query) =
          host ++ 47 :: front ++ 63 :: (back ++ 63 :: query) := by simp
      rw [hsplit, splitUrl_question hscheme hbefore, cutAuthority_append hslash] at hnamed
      have hle := length_percentDecode_le (47 :: front)
      rw [hnamed] at hle
      simp only [List.length_cons, List.length_append] at hle
      omega
    rw [hcut hquestion hslash hkey] at hnamed hquery hhost
    obtain ⟨huser, hport⟩ := hostOf_eq_self_iff.mp hhost
    exact ⟨⟨hsharpHost, hslash, hport, hquestion, huser⟩, ⟨hsharpKey, hkey, hpath.mp hnamed⟩,
      hsharpQuery, hquery⟩
  · rintro ⟨⟨hsharpHost, hslash, hport, hquestion, huser⟩, ⟨hsharpKey, hkey, hescape⟩, hsharpQuery,
      hquery⟩
    have hsplit := hcut hquestion hslash hkey
    refine ⟨⟨hwhole.mpr ⟨hsharpHost, hsharpKey, hsharpQuery⟩, ?_, ?_⟩, ?_⟩
    · rw [hsplit]
      exact hpath.mpr hescape
    · rw [hsplit]
      exact hquery
    · rw [hsplit]
      exact hostOf_eq_self_iff.mpr ⟨huser, hport⟩

end ElioP2P.Library
