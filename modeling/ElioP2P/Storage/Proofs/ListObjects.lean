import ElioP2P.Library.Decimals
import ElioP2P.Library.Markup
import ElioP2P.Storage.ListObjects
import Mathlib.Data.List.Forall2

/-!
# What is read from a listing

The scanner looks for tags as substrings and knows nothing of nesting.  On a body
in which `<` is written as an entity wherever it is not markup this is enough: the
segments of a tag are the elements of that name, and the first tag inside of a
segment is the field.
-/

namespace ElioP2P.Storage

open ElioP2P.Library

/-! ## Entities -/

theorem xmlUnescapeFrom_length (front rest : Bytes) :
    xmlUnescapeFrom front.length (front ++ rest) = xmlUnescapeFrom 0 rest := by
  induction front with
  | nil => rfl
  | cons b front ih => exact ih

theorem xmlUnescapeFrom_plain {b : UInt8} (hb : b ≠ 38) (rest : Bytes) :
    xmlUnescapeFrom 0 (b :: rest) = b :: xmlUnescapeFrom 0 rest := by
  have hnone : xmlEntity (b :: rest) = none := by
    rw [xmlEntity, if_neg]
    rw [List.head?_cons, Option.some.injEq]
    exact hb
  rw [xmlUnescapeFrom, hnone]

theorem xmlEntities_shape : ∀ entry ∈ xmlEntities, ∃ name, entry.1 = 38 :: (name ++ [59]) ∧
    59 ∉ name ∧ 60 ∉ name ∧ name.length ≤ 4 ∧ xmlEntities.lookup entry.1 = some entry.2 := by
  intro entry hentry
  refine ⟨entry.1.tail.dropLast, ?_⟩
  revert entry
  decide

theorem notMem_entity : ∀ entry ∈ xmlEntities, 60 ∉ entry.1 := by decide

theorem xmlEntity_append {entity : Bytes} {b : UInt8} (h : (entity, b) ∈ xmlEntities)
    (rest : Bytes) : xmlEntity (entity ++ rest) = some (b, entity.length - 1) := by
  obtain ⟨name, rfl, hsemi, -, hlength, hlookup⟩ := xmlEntities_shape _ h
  have hfind : find (38 :: (name ++ [59]) ++ rest) (ascii ";") 1 = some (name.length + 1) := by
    have hsplit : 38 :: (name ++ [59]) ++ rest = [38] ++ (name ++ ([59] ++ rest)) := by simp
    rw [hsplit]
    refine (find_append [38] (name ++ ([59] ++ rest)) (ascii ";")).trans ?_
    have hmatch : firstMatch (ascii ";") (name ++ ([59] ++ rest)) = some name.length :=
      firstMatch_of_notMem hsemi [] rest
    rw [hmatch]
    rfl
  have htake : (38 :: (name ++ [59]) ++ rest).take (name.length + 1 + 1) = 38 :: (name ++ [59]) :=
    List.take_left' (by simp)
  have hhead : (38 :: (name ++ [59]) ++ rest).head? = some 38 := rfl
  rw [xmlEntity, if_pos hhead, hfind]
  simp only [htake, hlookup]
  rw [if_pos (by omega)]
  simp

theorem xmlUnescapeFrom_entity {entity : Bytes} {b : UInt8} (h : (entity, b) ∈ xmlEntities)
    (rest : Bytes) : xmlUnescapeFrom 0 (entity ++ rest) = b :: xmlUnescapeFrom 0 rest := by
  have hentity := xmlEntity_append h rest
  obtain ⟨name, rfl, -⟩ := xmlEntities_shape _ h
  rw [List.cons_append] at hentity ⊢
  rw [xmlUnescapeFrom, hentity]
  exact congrArg (b :: ·) (xmlUnescapeFrom_length (name ++ [59]) rest)

theorem xmlUnescape_escapes {value escaped : Bytes} (h : Escapes xmlEntities value escaped) :
    xmlUnescape escaped = value := by
  rw [xmlUnescape]
  induction h with
  | nil => rfl
  | plain hamp _ _ ih => rw [xmlUnescapeFrom_plain hamp, ih]
  | entity hentity _ ih => rw [xmlUnescapeFrom_entity hentity, ih]

theorem xmlUnescape_append {front : Bytes} (hfront : 38 ∉ front) (rest : Bytes) :
    xmlUnescape (front ++ rest) = front ++ xmlUnescape rest := by
  rw [xmlUnescape]
  induction front with
  | nil => rfl
  | cons b front ih =>
      simp only [List.mem_cons, not_or] at hfront
      rw [List.cons_append, xmlUnescapeFrom_plain (Ne.symm hfront.1), ih hfront.2]
      rfl

/-! ## Fields -/

section Tags

variable {name : Bytes}

theorem openTag_eq (name : Bytes) : ascii "<" ++ name ++ ascii ">" = tagText name := by
  have hopen : ascii "<" = [60] := by decide
  have hclose : ascii ">" = [62] := by decide
  rw [hopen, hclose]
  rfl

theorem closeTag_eq (name : Bytes) : ascii "</" ++ name ++ ascii ">" = tagText (47 :: name) := by
  have hopen : ascii "</" = [60, 47] := by decide
  have hclose : ascii ">" = [62] := by decide
  rw [hopen, hclose]
  rfl

theorem xmlExtractTag_of_hasText (hname : 62 ∉ name) {tokens : List Token}
    (hwellFormed : ∀ token ∈ tokens, token.WellFormed) {value : Bytes}
    (h : HasText (Escapes xmlEntities) name value tokens) :
    xmlExtractTag (renderTokens tokens) name = value := by
  obtain ⟨before, escaped, after, rfl, hbefore, hescaped⟩ := h
  have htext : 60 ∉ escaped := hescaped.notMem notMem_entity
  have hstart : find (renderTokens (before ++ .tag name :: .text escaped :: .close name :: after))
      (tagText name) 0 = some (renderTokens before).length := by
    rw [renderTokens_append, renderTokens_cons, renderTokens_cons, renderTokens_cons]
    exact find_tag hname (fun t ht => hwellFormed t (List.mem_append_left _ ht)) hbefore [] _
  have hstop : find (renderTokens (before ++ .tag name :: .text escaped :: .close name :: after))
      (tagText (47 :: name)) ((renderTokens before).length + (tagText name).length) =
      some ((renderTokens before).length + (tagText name).length + escaped.length) := by
    have hfind := find_append (renderTokens before ++ tagText name)
      (escaped ++ (tagText (47 :: name) ++ renderTokens after)) (tagText (47 :: name))
    have hmatch : firstMatch (tagText (47 :: name))
        (escaped ++ (tagText (47 :: name) ++ renderTokens after)) = some escaped.length :=
      firstMatch_of_notMem htext _ _
    rw [hmatch, List.length_append] at hfind
    rw [renderTokens_append, renderTokens_cons, renderTokens_cons, renderTokens_cons]
    rw [List.append_assoc] at hfind
    exact hfind.trans (congrArg some (Nat.add_comm _ _))
  have hsubstr : substr
    (renderTokens (before ++ .tag name :: .text escaped :: .close name :: after))
      ((renderTokens before).length + (tagText name).length) escaped.length = escaped := by
    rw [renderTokens_append, renderTokens_cons, renderTokens_cons, substr, ← List.length_append,
      ← List.append_assoc]
    exact (congrArg (List.take escaped.length) (List.drop_left' rfl)).trans List.take_left
  rw [xmlExtractTag]
  simp only [openTag_eq, closeTag_eq, hstart, hstop, Nat.add_sub_cancel_left, hsubstr]
  exact xmlUnescape_escapes hescaped

end Tags

/-! ## Segments -/

theorem tag_ne_close (name : Bytes) : name ≠ 47 :: name := by
  intro h
  have hlength := congrArg List.length h
  simp at hlength

theorem segments_skip {name : Bytes} (hname : 62 ∉ name) {token : Token}
    (hwellFormed : token.WellFormed) (hother : token ≠ .tag name) (front rest : Bytes)
    (closeTag : Bytes) (fuel : Nat) :
    segments (front ++ (token.render ++ rest)) (tagText name) closeTag fuel front.length =
      segments (front ++ token.render ++ rest) (tagText name) closeTag fuel
        (front ++ token.render).length := by
  have hfind : find (front ++ (token.render ++ rest)) (tagText name) front.length =
      find (front ++ token.render ++ rest) (tagText name) (front ++ token.render).length := by
    have htoken : ∀ t ∈ [token], t.WellFormed := by simpa using hwellFormed
    have hstep := firstMatch_tokens hname htoken (by simpa using hother.symm) [] rest
    rw [List.append_nil, renderTokens_cons, renderTokens_nil, List.append_nil] at hstep
    rw [find_append, find_append, hstep, Option.map_map, List.length_append]
    simp only [Function.comp_def, Nat.add_assoc, Nat.add_comm token.render.length]
  cases fuel with
  | zero => rfl
  | succ fuel =>
      rw [segments, segments, hfind]
      simp only [List.append_assoc]

theorem segments_element {name : Bytes} (hname : 60 ∉ name ∧ 62 ∉ name) {children : List Token}
    (hwellFormed : ∀ token ∈ children, token.WellFormed) (hclose : .close name ∉ children)
    (front : Bytes) (rest : List Token) (fuel : Nat) :
    segments (front ++ renderTokens (writeElement name children rest)) (tagText name)
        (tagText (47 :: name)) (fuel + 1) front.length =
      renderTokens (.tag name :: children) ::
        segments (front ++ renderTokens (.tag name :: children) ++
            ((Token.close name).render ++ renderTokens rest)) (tagText name)
            (tagText (47 :: name)) fuel
          (front ++ renderTokens (.tag name :: children)).length := by
  have hopenToken : ∀ token ∈ Token.tag name :: children, token.WellFormed := by
    intro token htoken
    rcases List.mem_cons.mp htoken with rfl | hmem
    · exact hname
    · exact hwellFormed token hmem
  have hnotClose : Token.tag (47 :: name) ∉ Token.tag name :: children := by
    rw [List.mem_cons, not_or]
    exact ⟨fun heq => tag_ne_close name (Token.tag.inj heq).symm, hclose⟩
  have hbody : renderTokens (writeElement name children rest) =
      renderTokens (.tag name :: children) ++ ((Token.close name).render ++ renderTokens rest) := by
    simp
  have hstart : find (front ++ renderTokens (writeElement name children rest)) (tagText name)
      front.length = some front.length := by
    have h := find_tag hname.2 (fun token => (absurd · List.not_mem_nil)) List.not_mem_nil front
      (renderTokens (children ++ .close name :: rest))
    rwa [renderTokens_nil, List.length_nil, Nat.zero_add] at h
  have hstop : find (front ++ renderTokens (writeElement name children rest)) (tagText (47 :: name))
      front.length = some (front ++ renderTokens (.tag name :: children)).length := by
    rw [hbody, List.length_append, Nat.add_comm]
    exact find_tag (by simpa using hname.2) hopenToken hnotClose front (renderTokens rest)
  rw [segments, hstart]
  simp only [hstop]
  rw [hbody, substr, List.drop_left, List.length_append, Nat.add_sub_cancel_left, List.take_left,
    List.append_assoc]

/-- The segments of a tag are the elements of that name without their closing
tags. -/
theorem segments_elements {name : Bytes} (hname : 60 ∉ name ∧ 62 ∉ name)
    {contents : List (List Token)} {tokens : List Token} (h : Elements name contents tokens)
    (front : Bytes) {fuel : Nat} (hfuel : contents.length < fuel) :
    segments (front ++ renderTokens tokens) (tagText name)
      (tagText (47 :: name)) fuel front.length =
      contents.map fun children => renderTokens (.tag name :: children) := by
  induction h generalizing front fuel with
  | nil =>
      cases fuel with
      | zero => rfl
      | succ fuel =>
          rw [segments, renderTokens_nil, find_append]
          rfl
  | other hwellFormed hopen _ _ ih =>
      rw [renderTokens_cons, segments_skip hname.2 hwellFormed hopen, ih _ hfuel]
  | element hwellFormed _ hclose _ ih =>
      cases fuel with
      | zero => cases hfuel
      | succ fuel =>
          have hcloseWellFormed : (Token.close name).WellFormed := by
            simpa [Token.WellFormed, Token.close] using hname
          have hdistinct : Token.close name ≠ .tag name := fun heq =>
            tag_ne_close name (Token.tag.inj heq).symm
          rw [segments_element hname hwellFormed hclose,
            segments_skip hname.2 hcloseWellFormed hdistinct, ih _ (Nat.lt_of_succ_lt_succ hfuel),
            List.map_cons]

/-- The number of rounds is no restriction: a round moves on by at least one
byte. -/
theorem segments_fuel (body : Bytes) {name : Bytes} (hname : 62 ∉ name) {fuel fuel' pos : Nat}
    (hfuel : body.length < pos + fuel) (hle : fuel ≤ fuel') :
    segments body (tagText name) (tagText (47 :: name)) fuel' pos =
      segments body (tagText name) (tagText (47 :: name)) fuel pos := by
  induction fuel generalizing fuel' pos with
  | zero =>
      cases fuel' with
      | zero => rfl
      | succ fuel' =>
          have hnone : find body (tagText name) pos = none := if_pos hfuel
          simp only [segments, hnone]
  | succ fuel ih =>
      obtain ⟨fuel', rfl⟩ : ∃ n, fuel' = n + 1 := ⟨fuel' - 1, by omega⟩
      rw [segments, segments]
      cases hstart : find body (tagText name) pos with
      | none => rfl
      | some segStart =>
          cases hstop : find body (tagText (47 :: name)) segStart with
          | none => simp only [hstop]
          | some segEnd =>
              obtain ⟨hpos, -, hopen⟩ := find_spec hstart
              obtain ⟨hseg, -, hclose⟩ := find_spec hstop
              have hne : segStart ≠ segEnd := by
                rintro rfl
                obtain ⟨rest, hrest⟩ := hclose
                have hboth : tagText name ++ [] <+: tagText (47 :: name) ++ rest := by
                  rwa [List.append_nil, hrest]
                exact tag_ne_close name (eq_of_tagText_start hname (by simpa using hname) hboth)
              simp only [hstop]
              rw [ih (by omega) (by omega)]

/-! ## Listings -/

structure WritesObject (obj : ObjectMetadata) (children : List Token) : Prop where
  key : HasText (Escapes xmlEntities) (ascii "Key") obj.key children
  etag : HasText (Escapes xmlEntities) (ascii "ETag") obj.etag children
  size : HasText (Escapes xmlEntities) (ascii "Size") (decimal obj.size.toNat) children
  lastModified : ∃ time, obj.lastModified = some time ∧ time ≠ [] ∧
    HasText (Escapes xmlEntities) (ascii "LastModified") time children

structure WritesPrefix (keyPrefix : Bytes) (children : List Token) : Prop where
  filled : keyPrefix ≠ []
  text : HasText (Escapes xmlEntities) (ascii "Prefix") keyPrefix children

/-- The body of a listing: its `Contents` elements are the objects, its
`CommonPrefixes` elements the prefixes.  Nothing is said about other elements. -/
structure Listing (objects : List ObjectMetadata) (commonPrefixes : List Bytes)
    (tokens : List Token) : Prop where
  objects : ∃ contents, Elements (ascii "Contents") contents tokens ∧
    List.Forall₂ WritesObject objects contents
  commonPrefixes : ∃ contents, Elements (ascii "CommonPrefixes") contents tokens ∧
    List.Forall₂ WritesPrefix commonPrefixes contents

theorem xmlExtractTag_segment {element field value : Bytes} (helement : 60 ∉ element ∧ 62 ∉ element)
    (hfield : 62 ∉ field) (hne : element ≠ field) {children : List Token}
    (hwellFormed : ∀ token ∈ children, token.WellFormed)
    (h : HasText (Escapes xmlEntities) field value children) :
    xmlExtractTag (renderTokens (.tag element :: children)) field = value := by
  refine xmlExtractTag_of_hasText hfield ?_ (h.cons fun heq => hne (Token.tag.inj heq))
  intro token htoken
  rcases List.mem_cons.mp htoken with rfl | hmem
  · exact helement
  · exact hwellFormed token hmem

theorem parseContents_segment {obj : ObjectMetadata} {children : List Token}
    (hwellFormed : ∀ token ∈ children, token.WellFormed) (h : WritesObject obj children) :
    parseContents (renderTokens (.tag (ascii "Contents") :: children)) = obj := by
  have helement : 60 ∉ ascii "Contents" ∧ 62 ∉ ascii "Contents" := by decide
  obtain ⟨time, htime, hfilled, htext⟩ := h.lastModified
  have hkey := xmlExtractTag_segment helement (by decide) (by decide) hwellFormed h.key
  have hetag := xmlExtractTag_segment helement (by decide) (by decide) hwellFormed h.etag
  have hsize := xmlExtractTag_segment helement (by decide) (by decide) hwellFormed h.size
  have hlastModified := xmlExtractTag_segment helement (by decide) (by decide) hwellFormed htext
  have hread := stoull_decimal obj.size.toNat_lt
  rw [parseContents, hkey, hetag, hsize, hlastModified, hread,
    List.isEmpty_eq_false_iff.mpr (decimal_ne_nil _), List.isEmpty_eq_false_iff.mpr hfilled,
      ← htime]
  simp

/-! ## Bodies that are written out -/

def objectFields (obj : ObjectMetadata) (time : Bytes) : List (Bytes × Bytes) :=
  [(ascii "Key", obj.key), (ascii "ETag", obj.etag), (ascii "Size", decimal obj.size.toNat),
    (ascii "LastModified", time)]

/-- The fields may be written in any order. -/
theorem writesObject_leaves {obj : ObjectMetadata} {time : Bytes}
    (htime : obj.lastModified = some time)
    (hfilled : time ≠ []) {fields : List (Bytes × Bytes)}
    (hperm : fields.Perm (objectFields obj time)) :
    WritesObject obj (fields.flatMap (leaf xmlEntities)) := by
  have hnames : ((objectFields obj time).map Prod.fst).Nodup := by
    change [ascii "Key", ascii "ETag", ascii "Size", ascii "LastModified"].Nodup
    decide
  have hnodup := (hperm.map Prod.fst).nodup_iff.mpr hnames
  have htext : ∀ {name value}, name.head? ≠ some 47 → (name, value) ∈ objectFields obj time →
      HasText (Escapes xmlEntities) name value (fields.flatMap (leaf xmlEntities)) :=
    fun hname hmem => hasText_leaves (by decide) (by decide) hnodup hname (hperm.mem_iff.mpr hmem)
  exact
    { key := htext (by decide) (by simp [objectFields])
      etag := htext (by decide) (by simp [objectFields])
      size := htext (by decide) (by simp [objectFields])
      lastModified := ⟨time, htime, hfilled, htext (by decide) (by simp [objectFields])⟩ }

/-! ## Reading a listing -/

theorem segments_body {name : Bytes} (hname : 60 ∉ name ∧ 62 ∉ name)
    {contents : List (List Token)} {tokens : List Token} (h : Elements name contents tokens) :
    segments (renderTokens tokens) (tagText name) (tagText (47 :: name))
        ((renderTokens tokens).length + 1) 0 =
      contents.map fun children => renderTokens (.tag name :: children) :=
  segments_elements hname h [] (Nat.lt_succ_of_le h.length_le)

theorem map_eq_of_forall₂ {α β : Type} {R : α → β → Prop} {f : β → α} {xs : List α} {ys : List β}
    (h : List.Forall₂ R xs ys) (hf : ∀ x, ∀ y ∈ ys, R x y → f y = x) : ys.map f = xs := by
  induction h with
  | nil => rfl
  | cons hfirst _ ih =>
      rw [List.map_cons, hf _ _ List.mem_cons_self hfirst,
        ih fun x y hy => hf x y (List.mem_cons_of_mem _ hy)]

/-- Exactly the objects and the common prefixes of a listing are read, in their
order. -/
theorem parseListObjectsResponse_listing {objects : List ObjectMetadata}
    {commonPrefixes : List Bytes} {tokens : List Token}
    (h : Listing objects commonPrefixes tokens) :
    (parseListObjectsResponse (renderTokens tokens)).objects = objects ∧
      (parseListObjectsResponse (renderTokens tokens)).commonPrefixes = commonPrefixes := by
  constructor
  · obtain ⟨contents, helements, hwrites⟩ := h.objects
    have hsegments := segments_body (by decide) helements
    have hopen : ascii "<Contents>" = tagText (ascii "Contents") := by decide
    have hclose : ascii "</Contents>" = tagText (47 :: ascii "Contents") := by decide
    rw [← hopen, ← hclose] at hsegments
    rw [parseListObjectsResponse, hsegments, List.map_map]
    exact map_eq_of_forall₂ hwrites fun obj children hmem hobj =>
      parseContents_segment (helements.wellFormed children hmem) hobj
  · obtain ⟨contents, helements, hwrites⟩ := h.commonPrefixes
    have hname : 60 ∉ ascii "CommonPrefixes" ∧ 62 ∉ ascii "CommonPrefixes" := by decide
    have hsegments := segments_body hname helements
    have hopen : ascii "<CommonPrefixes>" = tagText (ascii "CommonPrefixes") := by decide
    have hclose : ascii "</CommonPrefixes>" = tagText (47 :: ascii "CommonPrefixes") := by decide
    rw [← hopen, ← hclose] at hsegments
    have hread : (contents.map fun children =>
        renderTokens (.tag (ascii "CommonPrefixes") :: children)).map
          (fun segment => xmlExtractTag segment (ascii "Prefix")) = commonPrefixes := by
      rw [List.map_map]
      exact map_eq_of_forall₂ hwrites fun keyPrefix children hmem hprefix =>
        xmlExtractTag_segment hname (by decide) (by decide) (helements.wellFormed children hmem)
          hprefix.text
    have hfilled : ∀ keyPrefix ∈ commonPrefixes, (!keyPrefix.isEmpty) = true := by
      refine ((List.forall₂_and_left _ _).mp (hwrites.imp fun keyPrefix children hprefix =>
        ⟨?_, hprefix⟩)).1
      rw [Bool.not_eq_true', List.isEmpty_eq_false_iff]
      exact hprefix.filled
    rw [parseListObjectsResponse, hsegments]
    simp only [hread]
    exact List.filter_eq_self.mpr hfilled

/-- A key that looks like a field, and an object without an ETag. -/
def sampleObjects : List ObjectMetadata :=
  [{ key := ascii "<Key>a&b", size := 7, etag := ascii "\"e\"", lastModified := some (ascii "t") },
    { key := ascii "k", size := 18446744073709551615, etag := [], lastModified :=
      some (ascii "u") }]

def sampleHead : List Token :=
  [.tag (ascii "?xml version=\"1.0\"?"), .text (ascii "\n"), .tag (ascii "ListBucketResult")] ++
    [(ascii "Name", ascii "bucket"), (ascii "Prefix", ascii "x")].flatMap (leaf xmlEntities)

def sampleContents : List Token × List Token :=
  ([(ascii "Size", ascii "7"), (ascii "Key", ascii "<Key>a&b"), (ascii "LastModified", ascii "t"),
      (ascii "ETag", ascii "\"e\"")].flatMap (leaf xmlEntities),
    [(ascii "Key", ascii "k"), (ascii "LastModified", ascii "u"), (ascii "ETag", []),
      (ascii "Size", ascii "18446744073709551615")].flatMap (leaf xmlEntities))

def sampleTail : List Token :=
  writeElement (ascii "CommonPrefixes") (leaf xmlEntities (ascii "Prefix", ascii "x/"))
    [.close (ascii "ListBucketResult")]

def sampleBody : List Token :=
  sampleHead ++ writeElement (ascii "Contents") sampleContents.1
    (writeElement (ascii "Contents") sampleContents.2 sampleTail)

theorem listing_sampleBody : Listing sampleObjects [ascii "x/"] sampleBody := by
  constructor
  · have htail : Elements (ascii "Contents") [] sampleTail := .none (by decide)
    have hcontents : Elements (ascii "Contents") [sampleContents.1, sampleContents.2]
        (writeElement (ascii "Contents") sampleContents.1
          (writeElement (ascii "Contents") sampleContents.2 sampleTail)) :=
      .element (by decide) (by decide) (by decide)
        (.element (by decide) (by decide) (by decide) htail)
    refine ⟨_, .others (by decide) hcontents, .cons ?_ (.cons ?_ .nil)⟩
    · exact writesObject_leaves rfl (by decide) (by decide)
    · exact writesObject_leaves rfl (by decide) (by decide)
  · have htail : Elements (ascii "CommonPrefixes") [leaf xmlEntities (ascii "Prefix", ascii "x/")]
        sampleTail := .element (by decide) (by decide) (by decide) (.none (by decide))
    have hother : ∀ token ∈ sampleHead ++ writeElement (ascii "Contents") sampleContents.1
        (writeElement (ascii "Contents") sampleContents.2 []), token.WellFormed ∧
          token ≠ .tag (ascii "CommonPrefixes") ∧
            token ≠ .close (ascii "CommonPrefixes") := by decide
    have hsplit : sampleBody = sampleHead ++ writeElement (ascii "Contents") sampleContents.1
        (writeElement (ascii "Contents") sampleContents.2 []) ++ sampleTail := by decide
    rw [hsplit]
    refine ⟨_, .others hother htail, .cons ⟨by decide, ?_⟩ .nil⟩
    exact ⟨[], _, _, rfl, List.not_mem_nil, escapes_escapeWith (by decide) (by decide) _⟩

theorem parseListObjectsResponse_sampleBody :
    (parseListObjectsResponse (renderTokens sampleBody)).objects = sampleObjects ∧
      (parseListObjectsResponse (renderTokens sampleBody)).commonPrefixes = [ascii "x/"] :=
  parseListObjectsResponse_listing listing_sampleBody

end ElioP2P.Storage
