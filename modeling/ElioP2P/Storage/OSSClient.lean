import ElioP2P.Storage.S3Client

/-!
# Presigned URLs of OSS

What `OSSClient` of `src/storage/oss_client.cpp` does in its own way: an object
has a host of its bucket, and a presigned URL carries an absolute expiry and an
HMAC-SHA1 over the resource.

HMAC-SHA1 comes from OpenSSL, and `now` is what `std::time` answers.
-/

namespace ElioP2P.Storage

open ElioP2P.Library

/-! ## Encoding -/

def base64Digit (n : Nat) : UInt8 :=
  UInt8.ofNat (if n < 26 then 65 + n else if n < 52 then 71 + n else if n < 62 then n - 4
    else if n = 62 then 43 else 47)

/-- `EVP_EncodeBlock`: three bytes as four digits, with `=` for those that are
missing in the end. -/
def base64Encode : Bytes → Bytes
  | a :: b :: c :: rest =>
      [base64Digit (a.toNat / 4), base64Digit (a.toNat % 4 * 16 + b.toNat / 16),
        base64Digit (b.toNat % 16 * 4 + c.toNat / 64), base64Digit (c.toNat % 64)] ++
        base64Encode rest
  | [a, b] =>
      [base64Digit (a.toNat / 4), base64Digit (a.toNat % 4 * 16 + b.toNat / 16),
        base64Digit (b.toNat % 16 * 4), 61]
  | [a] => [base64Digit (a.toNat / 4), base64Digit (a.toNat % 4 * 16), 61, 61]
  | [] => []

example : base64Encode (ascii "Man") = ascii "TWFu" ∧ base64Encode (ascii "light w") =
    ascii "bGlnaHQgdw==" ∧ base64Encode [251, 255] = ascii "+/8=" := by decide

def urlEncodeOss (value : Bytes) : Bytes := percentEncode isUnreserved value

/-! ## The client -/

/-- Configuration and credentials are those of the base class. -/
structure OSSClient extends S3Client

namespace OSSClient

/-- The URL of the configured endpoint, as it stands. -/
def getObjectUrl (client : OSSClient) (bucket key : Bytes) : Bytes :=
  ascii "https://" ++ bucket ++ ascii "." ++ client.endpoint ++ ascii "/" ++ key

/-- The endpoint without its scheme and without what stands behind its last
colon. -/
def endpointHost (endpoint : Bytes) : Bytes :=
  let endpoint :=
    if (ascii "https://").isPrefixOf endpoint then endpoint.drop 8
    else if (ascii "http://").isPrefixOf endpoint then endpoint.drop 7
    else endpoint
  match splitLast 58 endpoint with
  | some (front, _) => front
  | none => endpoint

def stringToSign (expires bucket key : Bytes) : Bytes :=
  ascii "GET\n\n\n" ++ expires ++ ascii "\n" ++ ascii "/" ++ bucket ++ ascii "/" ++ key

/-- An absolute time: the sum is one of 64-bit numbers. -/
def expiry (now : Int64) (expiresInSeconds : UInt64) : Bytes :=
  decimal (now.toUInt64 + expiresInSeconds).toNat

def signature (hmacSha1 : Bytes → Bytes → Bytes) (client : OSSClient) (expires bucket key : Bytes) :
    Bytes :=
  base64Encode (hmacSha1 client.secretKey (stringToSign expires bucket key))

/-- `generate_presigned_url_internal_oss`; its last argument is not used. -/
def generatePresignedUrl (hmacSha1 : Bytes → Bytes → Bytes) (client : OSSClient) (now : Int64)
    (bucket key : Bytes) (expiresInSeconds : UInt64) : Bytes :=
  if !client.hasCredentials then client.getObjectUrl bucket key
  else
    let expires := expiry now expiresInSeconds
    let signature := client.signature hmacSha1 expires bucket key
    client.protocol ++ bucket ++ ascii "." ++ endpointHost client.endpoint ++ ascii "/" ++ key ++
      ascii "?OSSAccessKeyId=" ++ client.accessKey ++ ascii "&Expires=" ++ expires ++
      ascii "&Signature=" ++ urlEncodeOss signature

def sample : OSSClient :=
  { endpoint := ascii "oss.example.com"
    region := []
    useHttps := true
    accessKey := ascii "AK"
    secretKey := ascii "SK" }

end OSSClient

end ElioP2P.Storage
