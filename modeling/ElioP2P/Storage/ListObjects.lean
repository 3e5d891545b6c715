import ElioP2P.Library.Bytes

/-!
# Listing responses

`parse_list_objects_response` of `src/storage/s3_client.cpp` with the scanner and
the entity decoder below it.  Positions are absolute, as in the source.
-/

namespace ElioP2P.Storage

open ElioP2P.Library

/-! ## Entities -/

def xmlEntities : List (Bytes × UInt8) :=
  [(ascii "&amp;", 38), (ascii "&lt;", 60), (ascii "&gt;", 62), (ascii "&quot;", 34),
    (ascii "&#39;", 39), (ascii "&apos;", 39)]

def xmlEntity (text : Bytes) : Option (UInt8 × Nat) :=
  if text.head? = some 38 then
    match find text (ascii ";") 1 with
    | none => none
    | some semi =>
        if semi ≤ 6 then (xmlEntities.lookup (text.take (semi + 1))).map fun c => (c, semi)
        else none
  else none

/-- The loop of `xml_unescape` over what is left of the value, with the number of
characters that the last entity still covers. -/
def xmlUnescapeFrom : Nat → Bytes → Bytes
  | _, [] => []
  | covered + 1, _ :: rest => xmlUnescapeFrom covered rest
  | 0, c :: rest =>
      match xmlEntity (c :: rest) with
      | some (decoded, semi) => decoded :: xmlUnescapeFrom semi rest
      | none => c :: xmlUnescapeFrom 0 rest

def xmlUnescape (value : Bytes) : Bytes := xmlUnescapeFrom 0 value

/-! ## Elements -/

/-- The text of the first element of a name, decoded; empty if there is none. -/
def xmlExtractTag (segment tag : Bytes) : Bytes :=
  let openTag := ascii "<" ++ tag ++ ascii ">"
  let closeTag := ascii "</" ++ tag ++ ascii ">"
  match find segment openTag 0 with
  | none => []
  | some pos =>
      let start := pos + openTag.length
      match find segment closeTag start with
      | none => []
      | some stop => xmlUnescape (substr segment start (stop - start))

def segments (body openTag closeTag : Bytes) : Nat → Nat → List Bytes
  | 0, _ => []
  | fuel + 1, pos =>
      match find body openTag pos with
      | none => []
      | some segStart =>
          match find body closeTag segStart with
          | none => []
          | some segEnd =>
              substr body segStart (segEnd - segStart) ::
                segments body openTag closeTag fuel segEnd

/-! ## Listings -/

structure ObjectMetadata where
  key : Bytes
  size : UInt64 := 0
  etag : Bytes
  lastModified : Option Bytes := none
  deriving DecidableEq

structure ListObjectsResult where
  objects : List ObjectMetadata := []
  commonPrefixes : List Bytes := []
  isTruncated : Bool := false
  continuationToken : Bytes := []

def parseContents (segment : Bytes) : ObjectMetadata :=
  let sizeStr := xmlExtractTag segment (ascii "Size")
  let lastModified := xmlExtractTag segment (ascii "LastModified")
  { key := xmlExtractTag segment (ascii "Key")
    etag := xmlExtractTag segment (ascii "ETag")
    size := if sizeStr.isEmpty then 0 else ((stoull sizeStr).map UInt64.ofNat).getD 0
    lastModified := if lastModified.isEmpty then none else some lastModified }

/-- The token of the next page; the offset of 25 is the source's. -/
def parseNextContinuationToken (body : Bytes) : Bytes :=
  match find body (ascii "<NextContinuationToken>") 0 with
  | none => []
  | some nextTokenPos =>
      let start := nextTokenPos + 25
      match find body (ascii "</NextContinuationToken>") start with
      | none => []
      | some stop => xmlUnescape (substr body start (stop - start))

/-- The optional that it returns is never empty. -/
def parseListObjectsResponse (body : Bytes) : ListObjectsResult :=
  { isTruncated := (find body (ascii "<IsTruncated>true</IsTruncated>") 0).isSome
    continuationToken := parseNextContinuationToken body
    objects := (segments body (ascii "<Contents>") (ascii "</Contents>") (body.length + 1) 0).map
      parseContents
    commonPrefixes :=
      ((segments body (ascii "<CommonPrefixes>") (ascii "</CommonPrefixes>")
        (body.length + 1) 0).map
        fun segment => xmlExtractTag segment (ascii "Prefix")).filter fun keyPrefix =>
          !keyPrefix.isEmpty }

end ElioP2P.Storage
