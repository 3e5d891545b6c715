import ElioP2P.Storage.Proofs.CanonicalQuery
import ElioP2P.Storage.Proofs.ListObjects

/-!
# Listings of several pages

`parse_list_objects_response` looks for the text of the next token 25 bytes behind
the beginning of its tag, which has 23.  Two bytes of the text are lost, or the
beginning of the closing tag where the text has only one.  Whatever the token is
and however it is written, what is read from it is not the token, and what is sent
back is not either.
-/

namespace ElioP2P.Storage

open ElioP2P.Library

/-! ## The token that is read -/

/-- A text that has lost too much of another one to begin with it, and has gained
little. -/
def Misread (token text : Bytes) : Prop := text.length ≤ token.length + 3 ∧ ¬ token <+: text

/-- Behind two bytes of an entity stands something else than what it stands for. -/
theorem entity_behind : ∀ entry ∈ xmlEntities, ∃ a b rest, entry.1 = 38 :: a :: b :: rest ∧
    38 ∉ a :: b :: rest ∧ b ≠ entry.2 ∧ rest.length ≤ 3 := by
  intro entry hentry
  refine ⟨(entry.1.drop 1).head!, (entry.1.drop 2).head!, entry.1.drop 3, ?_⟩
  revert entry
  decide

theorem misread_of_first_entity {first : UInt8} {entity value escaped : Bytes}
    (hentity : (entity, first) ∈ xmlEntities) (hrest : Escapes xmlEntities value escaped) :
    Misread (first :: value) (xmlUnescape ((entity ++ escaped).drop 2)) := by
  obtain ⟨a, b, rest, hshape, hamp, hne, hlength⟩ := entity_behind _ hentity
  simp only at hshape hne
  subst hshape
  have hamp' : 38 ∉ b :: rest := fun hmem => hamp (List.mem_cons_of_mem a hmem)
  have hread : xmlUnescape ((38 :: a :: b :: rest ++ escaped).drop 2) = b :: rest ++ value := by
    rw [← xmlUnescape_escapes hrest]
    exact xmlUnescape_append hamp' escaped
  rw [hread]
  refine ⟨?_, ?_⟩
  · simp only [List.length_append, List.length_cons]
    omega
  · rintro ⟨more, hmore⟩
    simp only [List.cons_append, List.cons.injEq] at hmore
    exact hne hmore.1.symm

theorem misread_of_second_entity (first : UInt8) {second : UInt8} {entity value escaped : Bytes}
    (hentity : (entity, second) ∈ xmlEntities) (hrest : Escapes xmlEntities value escaped) :
    Misread (first :: second :: value) (xmlUnescape ((first :: (entity ++ escaped)).drop 2)) := by
  obtain ⟨a, b, rest, hshape, hamp, hne, hlength⟩ := entity_behind _ hentity
  simp only at hshape hne
  subst hshape
  have hread : xmlUnescape ((first :: (38 :: a :: b :: rest ++ escaped)).drop 2) =
      a :: b :: rest ++ value := by
    rw [← xmlUnescape_escapes hrest]
    exact xmlUnescape_append hamp escaped
  rw [hread]
  refine ⟨?_, ?_⟩
  · simp only [List.length_append, List.length_cons]
    omega
  · rintro ⟨more, hmore⟩
    simp only [List.cons_append, List.cons.injEq] at hmore
    exact hne hmore.2.1.symm

theorem misread_of_shorter {token text : Bytes} (hlength : text.length < token.length) :
    Misread token text :=
  ⟨by omega, fun hprefix => Nat.not_le.mpr hlength hprefix.length_le⟩

theorem misread_drop {token escaped : Bytes} (h : Escapes xmlEntities token escaped)
    (hfilled : token ≠ []) : Misread token (xmlUnescape (escaped.drop 2)) := by
  cases h with
  | nil => exact absurd rfl hfilled
  | entity hentity hrest => exact misread_of_first_entity hentity hrest
  | @plain first value escaped _ _ hrest =>
      cases hrest with
      | nil => exact misread_of_shorter (Nat.succ_pos 0)
      | entity hentity hrest => exact misread_of_second_entity first hentity hrest
      | @plain second value escaped _ _ hrest =>
          have hread : xmlUnescape ((first :: second :: escaped).drop 2) = value :=
            xmlUnescape_escapes hrest
          rw [hread]
          exact misread_of_shorter (Nat.lt_succ_of_lt (Nat.lt_succ_self _))

theorem length_pos_of_escapes {token escaped : Bytes} (h : Escapes xmlEntities token escaped)
    (hfilled : token ≠ []) : 0 < escaped.length := by
  cases h with
  | nil => exact absurd rfl hfilled
  | plain => exact Nat.succ_pos _
  | entity hentity =>
      obtain ⟨a, b, rest, hshape, -⟩ := entity_behind _ hentity
      simp only at hshape
      rw [hshape]
      exact Nat.succ_pos _

/-! ## Pages -/

structure IssuesToken (token : Bytes) (page : List Token) : Prop where
  truncated : Elements (ascii "IsTruncated") [[.text (ascii "true")]] page
  filled : token ≠ []
  next : ∃ escaped, Escapes xmlEntities token escaped ∧
    Elements (ascii "NextContinuationToken") [[.text escaped]] page

def EndsListing (page : List Token) : Prop :=
  ∃ contents, Elements (ascii "IsTruncated") contents page ∧
    ∀ children ∈ contents, ∃ text, children = [.text text] ∧ text ≠ ascii "true"

inductive Paginated : List (List Token) → List Bytes → Prop
  | last {page : List Token} (hpage : EndsListing page) : Paginated [page] []
  | more {token : Bytes} {page : List Token} {pages : List (List Token)} {tokens : List Bytes}
      (hpage : IssuesToken token page) (hpages : Paginated pages tokens) :
      Paginated (page :: pages) (token :: tokens)

/-- `find` behind the first two bytes of a text. -/
theorem find_two_behind (front rest pattern : Bytes) (hrest : 2 ≤ rest.length) :
    find (front ++ rest) pattern (front.length + 2) =
      (firstMatch pattern (rest.drop 2)).map (· + (front.length + 2)) := by
  have hlength : (front ++ rest.take 2).length = front.length + 2 := by
    rw [List.length_append, List.length_take, Nat.min_eq_left hrest]
  have h := find_append (front ++ rest.take 2) (rest.drop 2) pattern
  rwa [hlength, List.append_assoc, List.take_append_drop] at h

theorem find_tag_two_behind {name escaped : Bytes} (htext : 60 ∉ escaped)
    (hlong : 2 ≤ escaped.length)
    (front rest : Bytes) :
    find (front ++ (escaped ++ (tagText name ++ rest))) (tagText name) (front.length + 2) =
        some (front.length + 2 + (escaped.drop 2).length) ∧
      substr (front ++ (escaped ++ (tagText name ++ rest))) (front.length + 2)
        (escaped.drop 2).length = escaped.drop 2 := by
  have hdrop : (escaped ++ (tagText name ++ rest)).drop 2 =
      escaped.drop 2 ++ (tagText name ++ rest) :=
    List.drop_append_of_le_length hlong
  have hmatch : firstMatch (tagText name) (escaped.drop 2 ++ (tagText name ++ rest)) =
      some (escaped.drop 2).length :=
    firstMatch_of_notMem (fun hmem => htext (List.mem_of_mem_drop hmem)) _ _
  constructor
  · rw [find_two_behind _ _ _ (by simp only [List.length_append]; omega), hdrop, hmatch,
      Option.map_some, Nat.add_comm]
  · rw [substr, ← List.drop_drop, List.drop_left, hdrop, List.take_left]

/-- A text of one byte: the search starts inside of the tag. -/
theorem find_tag_inside {name escaped : Bytes} (hname : 60 ∉ name) (hsingle : escaped.length = 1)
    (front : Bytes) {rest : Bytes} (hrest : firstMatch (tagText name) rest = none) :
    find (front ++ (escaped ++ (tagText name ++ rest))) (tagText name)
      (front.length + 2) = none := by
  obtain ⟨b, rfl⟩ := List.length_eq_one_iff.mp hsingle
  have hinner : 60 ∉ name ++ [62] := by simp [hname]
  have hdrop : ([b] ++ (tagText name ++ rest)).drop 2 = name ++ [62] ++ rest := rfl
  rw [find_two_behind _ _ _ (by simp [tagText]), hdrop]
  refine (congrArg _ (firstMatch_skip hinner (name ++ [62]) rest)).trans ?_
  change Option.map _ (Option.map _ (firstMatch (tagText name) rest)) = none
  rw [hrest]
  rfl

/-- The token that is read from a page is not the one that it issues. -/
theorem misread_parseNextContinuationToken {token : Bytes} {page : List Token}
    (h : IssuesToken token page) :
    Misread token (parseNextContinuationToken (renderTokens page)) := by
  obtain ⟨escaped, hescaped, helements⟩ := h.next
  obtain ⟨before, after, rfl, hbefore, hafter⟩ := helements.split
  have htext : 60 ∉ escaped := hescaped.notMem notMem_entity
  have hopen : ascii "<NextContinuationToken>" =
      tagText (ascii "NextContinuationToken") := by decide
  have hclose : ascii "</NextContinuationToken>" =
      tagText (47 :: ascii "NextContinuationToken") := by
    decide
  have hlength : (tagText (ascii "NextContinuationToken")).length = 23 := by decide
  have hname : 62 ∉ ascii "NextContinuationToken" := by decide
  have hcloseName : 60 ∉ 47 :: ascii "NextContinuationToken" ∧
      62 ∉ 47 :: ascii "NextContinuationToken" := by decide
  generalize ascii "NextContinuationToken" = name at *
  have hstart : find (renderTokens before ++ (tagText name ++
      (escaped ++ (tagText (47 :: name) ++ renderTokens after)))) (tagText name) 0 =
        some (renderTokens before).length :=
    find_tag hname (fun t ht => (hbefore t ht).1) (fun hmem => (hbefore _ hmem).2.1 rfl) [] _
  have hbody : renderTokens (before ++ writeElement name [.text escaped] after) =
      renderTokens before ++ (tagText name ++
        (escaped ++ (tagText (47 :: name) ++ renderTokens after))) := by
    rw [renderTokens_append]
    rfl
  have hpos : (renderTokens before).length + 25 =
      (renderTokens before ++ tagText name).length + 2 := by
    rw [List.length_append, hlength]
  rw [hbody, parseNextContinuationToken, hopen, hclose, hstart]
  simp only [hpos]
  rw [← List.append_assoc]
  by_cases hlong : 2 ≤ escaped.length
  · obtain ⟨hstop, hsubstr⟩ := find_tag_two_behind htext hlong (renderTokens before ++ tagText name)
      (renderTokens after)
    rw [hstop]
    simp only [Nat.add_sub_cancel_left, hsubstr]
    exact misread_drop hescaped h.filled
  · have hsingle : escaped.length = 1 := by
      have hpos := length_pos_of_escapes hescaped h.filled
      omega
    have hnone : firstMatch (tagText (47 :: name)) (renderTokens after) = none := by
      have hneutral := hafter.neutral
      have h := firstMatch_no_tag hcloseName.2 (fun t ht => (hneutral t ht).1)
        (fun hmem => (hneutral _ hmem).2.2 rfl) []
      rwa [List.append_nil] at h
    rw [find_tag_inside hcloseName.1 hsingle (renderTokens before ++ tagText name) hnone]
    refine ⟨Nat.zero_le _, fun hprefix => h.filled ?_⟩
    exact List.prefix_nil.mp hprefix

/-- Text other than `true` inside of the elements is not taken for it. -/
theorem firstMatch_element_text {name text : Bytes} (hname : 60 ∉ name ∧ 62 ∉ name)
    (htext : 60 ∉ text)
    {contents : List (List Token)} {tokens : List Token} (h : Elements name contents tokens)
    (hcontents : ∀ children ∈ contents, ∃ other, children = [.text other] ∧ other ≠ text) :
    firstMatch (tagText name ++ (text ++ tagText (47 :: name))) (renderTokens tokens) = none := by
  induction h with
  | nil => rfl
  | @other token rest contents hwellFormed hopen hclose _ ih =>
      have htoken : ∀ t ∈ [token], t.WellFormed := by simpa using hwellFormed
      have hskip := firstMatch_tokens hname.2 htoken (by simpa using hopen.symm)
        (text ++ tagText (47 :: name)) (renderTokens rest)
      rw [renderTokens_cons, renderTokens_nil, List.append_nil, ih hcontents] at hskip
      rw [renderTokens_cons, hskip]
      rfl
  | @element children rest contents hwellFormed hopen hclose helements ih =>
      obtain ⟨other, rfl, hne⟩ := hcontents _ List.mem_cons_self
      have hother : 60 ∉ other := hwellFormed _ List.mem_cons_self
      have hno : ¬ tagText name ++ (text ++ tagText (47 :: name)) <+:
          tagText name ++ (other ++ (tagText (47 :: name) ++ renderTokens rest)) := by
        rintro ⟨last, heq⟩
        rw [List.append_assoc, List.append_cancel_left_eq, List.append_assoc] at heq
        exact hne (append_first_inj htext hother heq).1.symm
      have htokens : ∀ t ∈ [Token.text other, .close name], t.WellFormed := by
        simpa [Token.WellFormed, Token.close, hother] using hname
      have hbefore : Token.tag name ∉ [Token.text other, .close name] := by
        simp [Token.close]
      have hskip := firstMatch_tokens hname.2 htokens hbefore (text ++ tagText (47 :: name))
        (renderTokens rest)
      rw [ih fun c hc => hcontents c (List.mem_cons_of_mem _ hc)] at hskip
      have hinner : renderTokens [.text other, .close name] ++ renderTokens rest =
          other ++ (tagText (47 :: name) ++ renderTokens rest) := by
        simp [Token.render, Token.close]
      have hbody : renderTokens (writeElement name [.text other] rest) =
          tagText name ++ (other ++ (tagText (47 :: name) ++ renderTokens rest)) := by
        simp [Token.render, Token.close]
      rw [hinner] at hskip
      rw [hbody]
      exact (firstMatch_skip_tag hname.1 hno).trans (congrArg (Option.map _) hskip)

theorem isTruncated_eq_false {page : List Token} (h : EndsListing page) :
    (parseListObjectsResponse (renderTokens page)).isTruncated = false := by
  obtain ⟨contents, helements, hcontents⟩ := h
  have hpattern : ascii "<IsTruncated>true</IsTruncated>" = tagText (ascii "IsTruncated") ++
      (ascii "true" ++ tagText (47 :: ascii "IsTruncated")) := by decide
  have hname : 60 ∉ ascii "IsTruncated" ∧ 62 ∉ ascii "IsTruncated" := by decide
  have htext : 60 ∉ ascii "true" := by decide
  have hnone := firstMatch_element_text hname htext helements hcontents
  rw [parseListObjectsResponse, hpattern]
  change (find ([] ++ renderTokens page) _ (List.length ([] : Bytes))).isSome = false
  rw [find_append, hnone]
  rfl

/-! ## Requests -/

namespace S3Client

def requestedToken (request : OutgoingRequest) : Option Bytes :=
  lastValue (queryParameters request.query) (ascii "continuation-token")

section Requests

variable (crypto : Crypto) (client : S3Client) (clock : Nat → Instant × Instant)
  (bucket keyPrefix : Bytes) (maxKeys : UInt32)

/-- `list_objects` again and again with the token of the page before, until a page
does not say that there are more.  The pages are answered one after the other. -/
def requestedTokens : Nat → Bytes → List Bytes → List (Option Bytes)
  | n, token, [] =>
      [requestedToken (listObjectsRequest crypto client (clock n).1 (clock n).2 bucket
        keyPrefix token
        maxKeys)]
  | n, token, body :: bodies =>
      requestedToken (listObjectsRequest crypto client (clock n).1 (clock n).2 bucket
        keyPrefix token
        maxKeys) ::
        let result := parseListObjectsResponse body
        if result.isTruncated then requestedTokens (n + 1) result.continuationToken bodies else []

/-- What the prefix itself gives as a continuation token. -/
def prefixToken (keyPrefix : Bytes) : Option Bytes :=
  lastValue (queryPairs (ascii "prefix=" ++ keyPrefix)) (ascii "continuation-token")

variable {crypto client bucket}

theorem requestedToken_listObjectsRequest (first second : Instant) (token : Bytes) :
    requestedToken (listObjectsRequest crypto client first second bucket keyPrefix token maxKeys) =
      if token = [] then prefixToken keyPrefix
      else lastValue (queryPairs (ascii "continuation-token=" ++ token))
        (ascii "continuation-token") := by
  have htype : lastValue [(ascii "list-type", ascii "2")] (ascii "continuation-token") = none := by
    decide
  have hkeys : ascii "max-keys" ≠ ascii "continuation-token" := by decide
  have hprefix : lastValue (if keyPrefix.isEmpty then []
      else queryPairs (ascii "prefix=" ++ keyPrefix)) (ascii "continuation-token") =
        prefixToken keyPrefix := by
    cases keyPrefix with
    | nil => decide
    | cons b keyPrefix => rfl
  have hmax : lastValue (if 0 < maxKeys then [(ascii "max-keys", decimal maxKeys.toNat)] else [])
      (ascii "continuation-token") = none := by
    rw [lastValue_eq_none_iff]
    split
    · simpa using hkeys.symm
    · exact List.not_mem_nil
  rw [requestedToken]
  change lastValue (queryParameters (canonicalizeQueryString (listQuery keyPrefix token maxKeys)))
    _ = _
  rw [lastValue_queryParameters_canonicalize, queryPairs_listQuery, ← List.singleton_append,
    lastValue_append, lastValue_append, lastValue_append, hmax, hprefix, htype, Option.or_none,
    Option.or_none]
  cases token with
  | nil => simp
  | cons b token =>
      have hname : 38 ∉ ascii "continuation-token" ∧ 61 ∉ ascii "continuation-token" := by decide
      have hsplit : ascii "continuation-token=" = ascii "continuation-token" ++ [61] := by decide
      obtain ⟨read, hread, -⟩ := lastValue_queryPairs_cut hname (b :: token)
      rw [hsplit, List.append_assoc]
      change Option.or (lastValue (queryPairs (_ ++ 61 :: b :: token)) _) _ =
        lastValue (queryPairs (_ ++ 61 :: b :: token)) _
      rw [hread, Option.some_or]

/-- A token that has been misread does not become the right one on its way. -/
theorem requestedToken_ne_of_misread (first second : Instant) {token text : Bytes}
    (htext : text ≠ []) (hmisread : Misread token text) :
    requestedToken (listObjectsRequest crypto client first second bucket keyPrefix text maxKeys) ≠
      some token := by
  have hname : 38 ∉ ascii "continuation-token" ∧ 61 ∉ ascii "continuation-token" := by decide
  have hlength : (ascii "continuation-token").length = 18 := by decide
  have hsplit : ascii "continuation-token=" = ascii "continuation-token" ++ [61] := by decide
  obtain ⟨read, hread, hcut⟩ := lastValue_queryPairs_cut hname text
  rw [requestedToken_listObjectsRequest, if_neg htext, hsplit, List.append_assoc]
  intro hsome
  obtain rfl := Option.some.inj (hread.symm.trans hsome)
  rcases hcut with hprefix | hshort
  · exact hmisread.2 hprefix
  · have hle := hmisread.1
    omega

theorem requestedTokens_head (n : Nat) (token : Bytes) (bodies : List Bytes) :
    ∃ rest, requestedTokens crypto client clock bucket keyPrefix maxKeys n token bodies =
      requestedToken
      (listObjectsRequest crypto client (clock n).1 (clock n).2 bucket keyPrefix token
        maxKeys) :: rest := by
  cases bodies with
  | nil => exact ⟨_, rfl⟩
  | cons body bodies => exact ⟨_, rfl⟩

/-- The calls ask with the tokens that have been issued exactly if there is none
and the prefix does not bring one. -/
theorem requestedTokens_eq_iff {pages : List (List Token)} {tokens : List Bytes}
    (h : Paginated pages tokens) :
    requestedTokens crypto client clock bucket keyPrefix maxKeys 0 [] (pages.map renderTokens) =
        none :: tokens.map some ↔
      tokens = [] ∧ prefixToken keyPrefix = none := by
  cases h with
  | last hpage =>
      simp only [List.map_cons, List.map_nil, requestedTokens, isTruncated_eq_false hpage,
        requestedToken_listObjectsRequest, Bool.false_eq_true, if_true, if_false, List.cons.injEq,
        and_true, true_and]
  | @more token page pages tokens hpage hpages =>
      refine iff_of_false (fun heq => ?_) fun hnone => absurd hnone.1 (List.cons_ne_nil _ _)
      simp only [List.map_cons, requestedTokens, List.cons.injEq, requestedToken_listObjectsRequest,
        if_true] at heq
      obtain ⟨hfirst, hrest⟩ := heq
      have hmisread : Misread token
        (parseListObjectsResponse (renderTokens page)).continuationToken :=
        misread_parseNextContinuationToken hpage
      split at hrest
      · obtain ⟨more, hmore⟩ := requestedTokens_head clock keyPrefix maxKeys (0 + 1)
          (parseListObjectsResponse (renderTokens page)).continuationToken (pages.map renderTokens)
        rw [hmore, List.cons.injEq] at hrest
        by_cases hempty : (parseListObjectsResponse (renderTokens page)).continuationToken = []
        · have hsecond := hrest.1
          rw [requestedToken_listObjectsRequest, if_pos hempty, hfirst] at hsecond
          cases hsecond
        · exact requestedToken_ne_of_misread keyPrefix maxKeys _ _ hempty hmisread hrest.1
      · cases hrest

end Requests

def samplePage (truncated : Bytes) (next : List Bytes) : List Token :=
  writeElement (ascii "IsTruncated") [.text truncated]
    (next.flatMap fun token => writeElement (ascii "NextContinuationToken") [.text token] [])

theorem endsListing_samplePage : EndsListing (samplePage (ascii "false") []) :=
  ⟨_, .element (by decide) (by decide) (by decide) .nil, by simp; decide⟩

theorem issuesToken_samplePage :
    IssuesToken (ascii "ab") (samplePage (ascii "true") [ascii "ab"]) where
  truncated := .element (by decide) (by decide) (by decide) (.none (by decide))
  filled := by decide
  next := by
    have hnext : Elements (ascii "NextContinuationToken") [[.text (ascii "ab")]]
        (writeElement (ascii "NextContinuationToken") [.text (ascii "ab")] []) :=
      .element (by decide) (by decide) (by decide) .nil
    have hother : ∀ token ∈ writeElement (ascii "IsTruncated") [.text (ascii "true")] [],
        token.WellFormed ∧ token ≠ .tag (ascii "NextContinuationToken") ∧
          token ≠ .close (ascii "NextContinuationToken") := by decide
    exact ⟨ascii "ab", .refl _ (by decide), .others hother hnext⟩

/-- A listing of one page asks once, without a token. -/
theorem requestedTokens_single_page :
    requestedTokens sampleCrypto sample
        (fun _ => (⟨0, by decide, by decide⟩, ⟨0, by decide, by decide⟩))
        (ascii "bucket") (ascii "docs/") 1000 0 []
        ([samplePage (ascii "false") []].map renderTokens) = [none] :=
  (requestedTokens_eq_iff _ _ _ (.last endsListing_samplePage)).mpr ⟨rfl, by decide⟩

/-- Of the token `ab` nothing is left, and the second call asks without one. -/
theorem requestedTokens_two_pages :
    Paginated [samplePage (ascii "true") [ascii "ab"], samplePage (ascii "false") []] [ascii "ab"] ∧
      requestedTokens sampleCrypto sample
        (fun _ => (⟨0, by decide, by decide⟩, ⟨0, by decide, by decide⟩)) (ascii "bucket")
        [] 1000 0 []
        ([samplePage (ascii "true") [ascii "ab"], samplePage (ascii "false") []].map renderTokens) ≠
          none :: [ascii "ab"].map some := by
  refine ⟨.more issuesToken_samplePage (.last endsListing_samplePage), ?_⟩
  decide

end S3Client

end ElioP2P.Storage
