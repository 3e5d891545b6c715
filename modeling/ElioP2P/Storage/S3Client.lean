import ElioP2P.Library.Calendar
import ElioP2P.Library.Numerals
import ElioP2P.Library.Queries
import ElioP2P.Library.Sha256

/-!
# Requests to the origin

The requests that `S3Client` of `src/storage/s3_client.cpp` builds and signs.
What the origin answers is not part of this module.

SHA-256 and HMAC come from OpenSSL.  Where the code reads the clock twice, the
two readings are arguments.
-/

namespace ElioP2P.Storage

open ElioP2P.Library

/-- The two functions of OpenSSL: `SHA256` and `HMAC(EVP_sha256(), key, data)`. -/
structure Crypto where
  sha256 : Sha256
  hmac : Bytes → Bytes → Bytes

/-! ## Encoding -/

def urlEncodePath (value : Bytes) : Bytes :=
  percentEncode (fun b => isUnreserved b || b == 47) value

def urlEncodeQuery (value : Bytes) : Bytes := percentEncode isUnreserved value

/-- Leading and trailing white space goes, and a run of it inside becomes one
space.  The flag says that white space has been passed behind something. -/
def trimAndCompress (value : Bytes) : Bytes :=
  (value.foldl
    (fun (out, pendingSpace) c =>
      if isSpace c then (out, pendingSpace || !out.isEmpty)
      else ((if pendingSpace then out ++ [32] else out) ++ [c], false))
    (([], false) : Bytes × Bool)).1

def canonicalizeQueryString (query : Bytes) : Bytes :=
  let params := (getlines 38 query).foldl
    (fun (params : OrderedMap Bytes Bytes) pair =>
      if pair.isEmpty then params
      else
        let (name, value) := splitFirst 61 pair
        params.assign (urlEncodeQuery name) (urlEncodeQuery value))
    .empty
  renderQuery params.entries

/-! ## The client -/

def splitLast (sep : UInt8) (text : Bytes) : Option (Bytes × Bytes) :=
  if sep ∈ text then
    let back := (text.reverse.takeWhile (· != sep)).reverse
    some (text.take (text.length - back.length - 1), back)
  else none

def parseEndpoint (endpoint : Bytes) (useHttps : Bool) : Bytes × UInt16 :=
  let (host, port) : Bytes × UInt16 :=
    if (ascii "https://").isPrefixOf endpoint then (endpoint.drop 8, 443)
    else if (ascii "http://").isPrefixOf endpoint then (endpoint.drop 7, 80)
    else (endpoint, if useHttps then 443 else 80)
  match splitLast 58 host with
  | none => (host, port)
  | some (front, back) =>
      match stoi back with
      | some n => (front, UInt16.ofNat (n % 65536).toNat)
      | none => (host, port)

/-- The configuration with `use_https` as the constructor leaves it, and the
credentials. -/
structure S3Client where
  endpoint : Bytes
  region : Bytes
  useHttps : Bool
  accessKey : Bytes
  secretKey : Bytes

namespace S3Client

def hasCredentials (client : S3Client) : Bool :=
  !client.accessKey.isEmpty && !client.secretKey.isEmpty

def signingRegion (client : S3Client) : Bytes :=
  if client.region.isEmpty then ascii "us-east-1" else client.region

/-- The host, with the port unless it is the default of the scheme. -/
def hostHeader (client : S3Client) : Bytes :=
  let (host, port) := parseEndpoint client.endpoint client.useHttps
  if (client.useHttps && port == 443) || (!client.useHttps && port == 80) then host
  else host ++ ascii ":" ++ decimal port.toNat

def protocol (client : S3Client) : Bytes :=
  if client.useHttps then ascii "https://" else ascii "http://"

def buildObjectUrl (client : S3Client) (bucket key : Bytes) : Bytes :=
  let endpoint :=
    if (ascii "https://").isPrefixOf client.endpoint then client.endpoint.drop 8
    else if (ascii "http://").isPrefixOf client.endpoint then client.endpoint.drop 7
    else client.endpoint
  client.protocol ++ bucket ++ ascii "." ++ endpoint ++ ascii "/" ++ key

/-! ## Signatures -/

def getCurrentTimeIso (now : Instant) : Bytes :=
  formatDate (civilDate now.day) ++ ascii "T" ++ formatTime now.secondOfDay ++ ascii "Z"

def getCurrentDate (now : Instant) : Bytes := formatDate (civilDate now.day)

def credentialScope (dateStamp region : Bytes) : Bytes :=
  dateStamp ++ ascii "/" ++ region ++ ascii "/s3/aws4_request"

def stringToSign (crypto : Crypto) (amzDate dateStamp region canonicalRequest : Bytes) : Bytes :=
  ascii "AWS4-HMAC-SHA256\n" ++ amzDate ++ ascii "\n" ++ credentialScope dateStamp region ++
    ascii "\n" ++ crypto.sha256.hex canonicalRequest

/-- The derivation chain with raw digests, and the signature in hexadecimal. -/
def signature (crypto : Crypto) (secretKey dateStamp region toSign : Bytes) : Bytes :=
  let kDate := crypto.hmac (ascii "AWS4" ++ secretKey) dateStamp
  let kRegion := crypto.hmac kDate region
  let kService := crypto.hmac kRegion (ascii "s3")
  let kSigning := crypto.hmac kService (ascii "aws4_request")
  hexEncode (crypto.hmac kSigning toSign)

/-- The headers that `sign_request` returns, with the locals that went into
them. -/
structure SignedRequest where
  amzDate : Bytes
  dateStamp : Bytes
  query : Bytes
  headers : List (Bytes × Bytes)

/-- `sign_request`; `none` is the empty list for want of credentials. -/
def signRequest (crypto : Crypto) (client : S3Client) (first second : Instant)
    (method bucket key queryString : Bytes) (headers : List (Bytes × Bytes))
    (payloadHash : Bytes) : Option SignedRequest :=
  if !client.hasCredentials then none
  else
    let amzDate := getCurrentTimeIso first
    let dateStamp := getCurrentDate second
    let canonicalMap := (OrderedMap.empty : OrderedMap Bytes Bytes).assignAll
      ([(ascii "host", client.hostHeader), (ascii "x-amz-content-sha256", payloadHash),
        (ascii "x-amz-date", amzDate)] ++
        headers.map fun h => (h.1.map toLower, trimAndCompress h.2))
    let canonicalHeaders := canonicalMap.entries.flatMap fun h =>
      h.1 ++ ascii ":" ++ h.2 ++ ascii "\n"
    let signedHeaders := joinWith 59 (canonicalMap.entries.map Prod.fst)
    let canonicalUri :=
      if bucket.isEmpty then ascii "/"
      else ascii "/" ++ bucket ++ ascii "/" ++ if key.isEmpty then [] else urlEncodePath key
    let canonicalRequest := method ++ ascii "\n" ++ canonicalUri ++ ascii "\n" ++ queryString ++
      ascii "\n" ++ canonicalHeaders ++ ascii "\n" ++ signedHeaders ++ ascii "\n" ++ payloadHash
    let toSign := stringToSign crypto amzDate dateStamp client.signingRegion canonicalRequest
    let authorization := ascii "AWS4-HMAC-SHA256 Credential=" ++ client.accessKey ++ ascii "/" ++
      credentialScope dateStamp client.signingRegion ++ ascii ", SignedHeaders=" ++ signedHeaders ++
      ascii ", Signature=" ++
      signature crypto client.secretKey dateStamp client.signingRegion toSign
    some
      { amzDate := amzDate
        dateStamp := dateStamp
        query := queryString
        headers := [(ascii "x-amz-date", amzDate), (ascii "x-amz-content-sha256", payloadHash),
          (ascii "Authorization", authorization)] }

structure PresignedUrl where
  amzDate : Bytes
  dateStamp : Bytes
  url : Bytes

/-- The parameters of a presigned URL but the signature, as they are put into
the map before those of the original query. -/
def presignParameters (client : S3Client) (amzDate dateStamp : Bytes) (expiresInSeconds : UInt64) :
    List (Bytes × Bytes) :=
  [(ascii "X-Amz-Algorithm", ascii "AWS4-HMAC-SHA256"),
    (ascii "X-Amz-Credential",
      client.accessKey ++ ascii "/" ++ credentialScope dateStamp client.signingRegion),
    (ascii "X-Amz-Date", amzDate),
    (ascii "X-Amz-Expires", decimal expiresInSeconds.toNat),
    (ascii "X-Amz-SignedHeaders", ascii "host")]

/-- The pairs of the original query: pieces without `=` are passed over. -/
def originalPairs (query : Bytes) : List (Bytes × Bytes) :=
  ((getlines 38 query).filter fun param => 61 ∈ param).map (splitFirst 61)

def presign (crypto : Crypto) (client : S3Client) (first second : Instant) (bucket key : Bytes)
    (expiresInSeconds : UInt64) (queryParams : Bytes) : PresignedUrl :=
  let amzDate := getCurrentTimeIso first
  let dateStamp := getCurrentDate second
  let queryParamsMap := (OrderedMap.empty : OrderedMap Bytes Bytes).assignAll
    (client.presignParameters amzDate dateStamp expiresInSeconds ++ originalPairs queryParams)
  let canonicalQuery := renderQuery (queryParamsMap.entries.map fun p =>
    (urlEncodeQuery p.1, urlEncodeQuery p.2))
  let path := ascii "/" ++ bucket ++ ascii "/" ++ urlEncodePath key
  let canonicalRequest := ascii "GET\n" ++ path ++ ascii "\n" ++ canonicalQuery ++ ascii "\n" ++
    ascii "host:" ++ client.hostHeader ++ ascii "\n\nhost\nUNSIGNED-PAYLOAD"
  let toSign := stringToSign crypto amzDate dateStamp client.signingRegion canonicalRequest
  { amzDate := amzDate
    dateStamp := dateStamp
    url := client.protocol ++ client.hostHeader ++ path ++ ascii "?" ++ canonicalQuery ++
      ascii "&X-Amz-Signature=" ++
      signature crypto client.secretKey dateStamp client.signingRegion toSign }

/-- `generate_presigned_url_internal`; `none` where it builds the plain URL for
want of credentials. -/
def generatePresignedUrlInternal (crypto : Crypto) (client : S3Client) (first second : Instant)
    (bucket key : Bytes) (expiresInSeconds : UInt64) (queryParams : Bytes) :
    Option PresignedUrl :=
  if !client.hasCredentials then none
  else some (presign crypto client first second bucket key expiresInSeconds queryParams)

def generatePresignedUrl (crypto : Crypto) (client : S3Client) (first second : Instant)
    (bucket key : Bytes) (expiresInSeconds : UInt64) : Bytes :=
  match generatePresignedUrlInternal crypto client first second bucket key expiresInSeconds [] with
  | some presigned => presigned.url
  | none => client.buildObjectUrl bucket key

/-! ## Requests -/

structure AuthenticatedRequest where
  url : Bytes
  headers : List (Bytes × Bytes) := []
  needsPassthrough : Bool := false

def authenticateRequest (crypto : Crypto) (client : S3Client) (first second : Instant)
    (method bucket key : Bytes) (originalHeaders : List (Bytes × Bytes))
    (originalQueryString : Bytes) : AuthenticatedRequest :=
  let url := client.buildObjectUrl bucket key
  if !originalQueryString.isEmpty then
    match generatePresignedUrlInternal crypto client first second bucket key 3600
        originalQueryString with
    | some presigned => { url := presigned.url }
    | none => { url := url ++ ascii "?" ++ originalQueryString }
  else if originalHeaders.any fun h => h.1 = ascii "x-amz-date" || h.1 = ascii "Authorization" then
    match signRequest crypto client first second method bucket key [] originalHeaders
        (crypto.sha256.hex []) with
    | some signed => { url := url, headers := originalHeaders ++ signed.headers }
    | none => { url := url, headers := originalHeaders }
  else { url := url, needsPassthrough := client.accessKey.isEmpty }

structure OutgoingRequest where
  method : Bytes
  path : Bytes
  query : Bytes
  host : Bytes
  signed : Option SignedRequest
  extraHeaders : List (Bytes × Bytes)
  contentType : Bytes
  body : Bytes

def executeRequest (crypto : Crypto) (client : S3Client) (first second : Instant)
    (method bucket key queryString : Bytes) (extraHeaders : List (Bytes × Bytes))
    (body contentType : Bytes) : OutgoingRequest :=
  let payloadHash := crypto.sha256.hex body
  let canonicalQuery := canonicalizeQueryString queryString
  { method := method
    path := ascii "/" ++ bucket ++ ascii "/" ++ urlEncodePath key
    query := canonicalQuery
    host := client.hostHeader
    signed := signRequest crypto client first second method bucket key canonicalQuery extraHeaders
      payloadHash
    extraHeaders := extraHeaders
    contentType := contentType
    body := body }

def listQuery (keyPrefix continuationToken : Bytes) (maxKeys : UInt32) : Bytes :=
  ascii "list-type=2" ++
    (if keyPrefix.isEmpty then [] else ascii "&prefix=" ++ keyPrefix) ++
    (if 0 < maxKeys then ascii "&max-keys=" ++ decimal maxKeys.toNat else []) ++
    (if continuationToken.isEmpty then [] else ascii "&continuation-token=" ++ continuationToken)

def listObjectsRequest (crypto : Crypto) (client : S3Client) (first second : Instant)
    (bucket keyPrefix continuationToken : Bytes) (maxKeys : UInt32) : OutgoingRequest :=
  executeRequest crypto client first second (ascii "GET") bucket []
    (listQuery keyPrefix continuationToken maxKeys) [] [] []

def rangeHeader (offset length : UInt64) : Option Bytes :=
  if 0 < offset || 0 < length then
    some (ascii "bytes=" ++ decimal offset.toNat ++
      if 0 < length then ascii "-" ++ decimal (offset + length - 1).toNat else [])
  else none

def getObjectRequest (crypto : Crypto) (client : S3Client) (first second : Instant)
    (bucket key : Bytes) (offset length : UInt64) : OutgoingRequest :=
  executeRequest crypto client first second (ascii "GET") bucket key []
    ((rangeHeader offset length).toList.map fun range => (ascii "Range", range)) [] []

def sample : S3Client :=
  { endpoint := ascii "localhost:9000"
    region := []
    useHttps := false
    accessKey := ascii "AK"
    secretKey := ascii "SK" }

end S3Client

def sampleCrypto : Crypto :=
  { sha256 := Sha256.table []
    hmac := fun _ _ => [0] }

end ElioP2P.Storage
