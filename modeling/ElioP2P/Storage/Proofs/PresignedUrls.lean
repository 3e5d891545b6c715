import ElioP2P.Library.Urls
import ElioP2P.Storage.OSSClient
import ElioP2P.Storage.Proofs.Resigning

/-!
# What a presigned URL names

S3 encodes the key and puts the bucket into the path as it is.  OSS puts the
bucket into the host, and key and access key into the URL as they are.  A mark of
the URL or an escape in what is not encoded changes what the URL names.
-/

namespace ElioP2P.Storage

open ElioP2P.Library

/-! ## S3 -/

namespace S3Client

theorem exists_protocol (client : S3Client) :
    ∃ scheme, IsScheme scheme ∧ client.protocol = scheme ++ [58, 47, 47] := by
  have hhttps : IsScheme (ascii "https") := ⟨by decide, by decide, by decide⟩
  have hhttp : IsScheme (ascii "http") := ⟨by decide, by decide, by decide⟩
  unfold protocol
  split
  · exact ⟨ascii "https", hhttps, by decide⟩
  · exact ⟨ascii "http", hhttp, by decide⟩

/-- A port adds nothing but a colon and digits to the host. -/
theorem mem_hostHeader_iff (client : S3Client) {b : UInt8} (hdigit : isDigit b = false)
    (hcolon : b ≠ 58) :
    b ∈ client.hostHeader ↔ b ∈ (parseEndpoint client.endpoint client.useHttps).1 := by
  have hmark : ascii ":" = [58] := by decide
  simp only [hostHeader]
  split
  · rfl
  · simp [hmark, notMem_decimal hdigit, hcolon]

theorem forall_notMem_host_iff (client : S3Client) :
    (∀ mark ∈ ascii "#/?", mark ∉ (parseEndpoint client.endpoint client.useHttps).1) ↔
      35 ∉ client.hostHeader ∧ 47 ∉ client.hostHeader ∧ 63 ∉ client.hostHeader := by
  have hmarks : ascii "#/?" = [35, 47, 63] := by decide
  rw [hmarks, client.mem_hostHeader_iff (by decide) (by decide),
    client.mem_hostHeader_iff (by decide) (by decide),
    client.mem_hostHeader_iff (by decide) (by decide)]
  simp

def signingParameters (crypto : Crypto) (client : S3Client) (first second : Instant)
    (bucket key : Bytes) (expiresInSeconds : UInt64) : List (Bytes × Bytes) :=
  let amzDate := getCurrentTimeIso first
  let dateStamp := getCurrentDate second
  let params := client.presignParameters amzDate dateStamp expiresInSeconds
  let canonicalRequest := ascii "GET\n" ++
    (ascii "/" ++ bucket ++ ascii "/" ++ urlEncodePath key) ++ ascii "\n" ++
    renderQuery (params.map encodePair) ++ ascii "\n" ++ ascii "host:" ++ client.hostHeader ++
    ascii "\n\nhost\nUNSIGNED-PAYLOAD"
  let toSign := stringToSign crypto amzDate dateStamp client.signingRegion canonicalRequest
  params ++ [(ascii "X-Amz-Signature",
    signature crypto client.secretKey dateStamp client.signingRegion toSign)]

structure PlainBucket (client : S3Client) (bucket : Bytes) : Prop where
  host : ∀ mark ∈ ascii "#/?", mark ∉ (parseEndpoint client.endpoint client.useHttps).1
  bucket : 35 ∉ bucket ∧ 63 ∉ bucket ∧ ¬ HasEscape bucket

section Url

variable (crypto : Crypto) {client : S3Client} (first second : Instant) (bucket key : Bytes)
  (expiresInSeconds : UInt64)

theorem generatePresignedUrl_eq (hcredentials : client.hasCredentials = true) :
    generatePresignedUrl crypto client first second bucket key expiresInSeconds =
      client.protocol ++ (client.hostHeader ++ 47 :: (bucket ++ 47 :: urlEncodePath key) ++
        63 :: renderQuery ((client.signingParameters crypto first second bucket key
          expiresInSeconds).map encodePair)) := by
  have hequals : ascii "&X-Amz-Signature=" = 38 :: (ascii "X-Amz-Signature" ++ [61]) := by decide
  have hmark : ascii "?" = [63] := by decide
  have hslash : ascii "/" = [47] := by decide
  obtain ⟨mac, hparams, hurl⟩ : ∃ mac,
      client.signingParameters crypto first second bucket key expiresInSeconds =
        client.presignParameters (getCurrentTimeIso first) (getCurrentDate second)
          expiresInSeconds ++ [(ascii "X-Amz-Signature", hexEncode mac)] ∧
      (presign crypto client first second bucket key expiresInSeconds []).url =
        client.protocol ++ client.hostHeader ++
          (ascii "/" ++ bucket ++ ascii "/" ++ urlEncodePath key) ++ ascii "?" ++
          renderQuery ((client.presignParameters (getCurrentTimeIso first) (getCurrentDate second)
            expiresInSeconds).map encodePair) ++ ascii "&X-Amz-Signature=" ++ hexEncode mac :=
    ⟨_, rfl, rfl⟩
  rw [generatePresignedUrl, generatePresignedUrlInternal_of_hasCredentials crypto hcredentials]
  have hne : client.presignParameters (getCurrentTimeIso first) (getCurrentDate second)
      expiresInSeconds ≠ [] := List.cons_ne_nil _ _
  refine hurl.trans ?_
  rw [hparams, ← renderQuery_signature hne, hequals, hmark, hslash]
  simp only [List.append_assoc, List.cons_append, List.nil_append]

/-- The URL names the object exactly if host and bucket hold no mark of a URL and
the bucket no escape. -/
theorem namesObject_iff (hcredentials : client.hasCredentials = true) :
    NamesObject (generatePresignedUrl crypto client first second bucket key expiresInSeconds)
        (47 :: (bucket ++ 47 :: key))
        (client.signingParameters crypto first second bucket key expiresInSeconds) ↔
      PlainBucket client bucket := by
  obtain ⟨scheme, hscheme, hprotocol⟩ := client.exists_protocol
  have hkey : 35 ∉ urlEncodePath key ∧ 63 ∉ urlEncodePath key :=
    ⟨notMem_percentEncode (by decide) (by decide) (by decide) key,
      notMem_percentEncode (by decide) (by decide) (by decide) key⟩
  have hdecode : percentDecode (urlEncodePath key) = key :=
    percentDecode_percentEncode (by decide) key
  obtain ⟨rest, hparams⟩ : ∃ rest,
      client.signingParameters crypto first second bucket key expiresInSeconds =
        (ascii "X-Amz-Algorithm", ascii "AWS4-HMAC-SHA256") :: rest := ⟨_, rfl⟩
  have hsharp : 35 ∉ client.hostHeader ++ 47 :: (bucket ++ 47 :: urlEncodePath key) ↔
      35 ∉ client.hostHeader ∧ 35 ∉ bucket := by simp [hkey.1]
  have hquestion : 63 ∉ client.hostHeader ++ 47 :: (bucket ++ 47 :: urlEncodePath key) ↔
      63 ∉ client.hostHeader ∧ 63 ∉ bucket := by simp [hkey.2]
  rw [generatePresignedUrl_eq crypto first second bucket key expiresInSeconds hcredentials,
    hprotocol, List.append_assoc, hparams]
  refine (namesObject_encoded_iff hscheme _ _ ⟨by decide, by decide⟩ rest).trans ?_
  rw [hsharp, hquestion, percentDecode_path_iff hdecode]
  constructor
  · rintro ⟨⟨hsharpHost, hsharpBucket⟩, ⟨hmarkHost, hmarkBucket⟩, hslash, hescape⟩
    exact ⟨client.forall_notMem_host_iff.mpr ⟨hsharpHost, hslash, hmarkHost⟩, hsharpBucket,
      hmarkBucket, hescape⟩
  · rintro ⟨hplain, hsharpBucket, hmarkBucket, hescape⟩
    obtain ⟨hsharpHost, hslash, hmarkHost⟩ := client.forall_notMem_host_iff.mp hplain
    exact ⟨⟨hsharpHost, hsharpBucket⟩, ⟨hmarkHost, hmarkBucket⟩, hslash, hescape⟩

end Url

end S3Client

/-! ## OSS -/

namespace OSSClient

open S3Client (exists_protocol)

def bucketHost (client : OSSClient) (bucket : Bytes) : Bytes :=
  bucket ++ ascii "." ++ endpointHost client.endpoint

def signingParameters (hmacSha1 : Bytes → Bytes → Bytes) (client : OSSClient) (now : Int64)
    (bucket key : Bytes) (expiresInSeconds : UInt64) : List (Bytes × Bytes) :=
  let expires := expiry now expiresInSeconds
  [(ascii "OSSAccessKeyId", client.accessKey), (ascii "Expires", expires),
    (ascii "Signature", client.signature hmacSha1 expires bucket key)]

structure PlainObject (client : OSSClient) (bucket key : Bytes) : Prop where
  host : ∀ mark ∈ ascii "#/:?@", mark ∉ client.bucketHost bucket
  key : 35 ∉ key ∧ 63 ∉ key ∧ ¬ HasEscape key
  accessKey : 35 ∉ client.accessKey ∧ 38 ∉ client.accessKey ∧ ¬ HasEscape client.accessKey

section Url

variable (hmacSha1 : Bytes → Bytes → Bytes) {client : OSSClient} (now : Int64)
  (bucket key : Bytes) (expiresInSeconds : UInt64)

theorem percentEncode_expiry : percentEncode isUnreserved (expiry now expiresInSeconds) =
    expiry now expiresInSeconds := by
  refine percentEncode_of_kept fun b hb => ?_
  have hdigit := isDigit_of_mem_decimal hb
  simp [isUnreserved, isAlnum, hdigit]

theorem generatePresignedUrl_eq (hcredentials : client.hasCredentials = true) :
    generatePresignedUrl hmacSha1 client now bucket key expiresInSeconds =
      client.protocol ++ (client.bucketHost bucket ++ (47 :: key ++
        63 :: (ascii "OSSAccessKeyId" ++ 61 :: (client.accessKey ++
          38 :: renderQuery ((client.signingParameters hmacSha1 now bucket key
            expiresInSeconds).tail.map encodePair))))) := by
  have hplain : percentEncode isUnreserved (ascii "Expires") = ascii "Expires" := by decide
  have hexpires : encodePair (ascii "Expires", expiry now expiresInSeconds) =
      (ascii "Expires", expiry now expiresInSeconds) :=
    Prod.ext hplain (percentEncode_expiry now expiresInSeconds)
  have hname : percentEncode isUnreserved (ascii "Signature") = ascii "Signature" := by decide
  have hfirst : ascii "?OSSAccessKeyId=" = 63 :: (ascii "OSSAccessKeyId" ++ [61]) := by decide
  have hsecond : ascii "&Expires=" = 38 :: (ascii "Expires" ++ [61]) := by decide
  have hthird : ascii "&Signature=" = 38 :: (ascii "Signature" ++ [61]) := by decide
  have hslash : ascii "/" = [47] := by decide
  have hrender : ∀ p q : Bytes × Bytes,
      renderQuery [p, q] = p.1 ++ 61 :: p.2 ++ 38 :: (q.1 ++ 61 :: q.2) := by
    intro p q
    have hsplit := renderQuery_append (List.cons_ne_nil p []) (List.cons_ne_nil q [])
    rwa [renderQuery_singleton, renderQuery_singleton] at hsplit
  simp only [generatePresignedUrl, hcredentials, Bool.not_true, Bool.false_eq_true, if_false,
    signingParameters, List.tail_cons, List.map_cons, List.map_nil, hexpires, hrender, hfirst,
    hsecond, hthird, hslash, bucketHost, List.append_assoc, List.cons_append, List.nil_append]
  rw [encodePair, hname]
  rfl

theorem namesObject_iff (hcredentials : client.hasCredentials = true) :
    (NamesObject (generatePresignedUrl hmacSha1 client now bucket key expiresInSeconds) (47 :: key)
        (client.signingParameters hmacSha1 now bucket key expiresInSeconds) ∧
      hostOf (splitUrl (generatePresignedUrl hmacSha1 client now bucket key
        expiresInSeconds)).authority = client.bucketHost bucket) ↔
      PlainObject client bucket key := by
  obtain ⟨scheme, hscheme, hprotocol⟩ := client.exists_protocol
  obtain ⟨rest, hparams, hrest⟩ : ∃ rest,
      client.signingParameters hmacSha1 now bucket key expiresInSeconds =
        (ascii "OSSAccessKeyId", client.accessKey) :: rest ∧
      ascii "OSSAccessKeyId" ∉ rest.map Prod.fst :=
    ⟨_, rfl, by change _ ∉ [ascii "Expires", ascii "Signature"]; decide⟩
  rw [generatePresignedUrl_eq hmacSha1 now bucket key expiresInSeconds hcredentials,
    hprotocol, List.append_assoc, hparams, List.tail_cons]
  have hperm := perm_raw_first_iff (by decide) (by decide) client.accessKey hrest
  have hencoded : 35 ∉ renderQuery (rest.map encodePair) :=
    notMem_renderQuery_encode (by decide) (by decide) (by decide) _
  have hwhole : 35 ∉ ascii "OSSAccessKeyId" ++ 61 :: (client.accessKey ++
      38 :: renderQuery (rest.map encodePair)) ↔ 35 ∉ client.accessKey := by
    have hname : 35 ∉ ascii "OSSAccessKeyId" := by decide
    simp [hname, hencoded]
  refine (namesObject_raw_iff hscheme _ key _ _).trans ?_
  rw [hperm, hwhole]
  constructor
  · rintro ⟨hhost, hkey, hsharp, hamp, hescape⟩
    exact ⟨hhost, hkey, hsharp, hamp, hescape⟩
  · rintro ⟨hhost, hkey, hsharp, hamp, hescape⟩
    exact ⟨hhost, hkey, hsharp, hamp, hescape⟩

end Url

end OSSClient

/-! ## Both clients -/

/-- What the presigned URLs of one configuration name. -/
theorem namesObject_generatePresignedUrl_iff (crypto : Crypto) (hmacSha1 : Bytes → Bytes → Bytes)
    {client : OSSClient} (hcredentials : client.hasCredentials = true) (first second : Instant)
    (now : Int64) (bucket key : Bytes) (expiresInSeconds : UInt64) :
    (NamesObject
        (client.toS3Client.generatePresignedUrl crypto first second bucket key expiresInSeconds)
        (47 :: (bucket ++ 47 :: key))
        (client.toS3Client.signingParameters crypto first second bucket key expiresInSeconds) ↔
      S3Client.PlainBucket client.toS3Client bucket) ∧
    ((NamesObject (OSSClient.generatePresignedUrl hmacSha1 client now bucket key expiresInSeconds)
          (47 :: key) (client.signingParameters hmacSha1 now bucket key expiresInSeconds) ∧
        hostOf (splitUrl (OSSClient.generatePresignedUrl hmacSha1 client now bucket key
          expiresInSeconds)).authority = client.bucketHost bucket) ↔
      OSSClient.PlainObject client bucket key) :=
  ⟨S3Client.namesObject_iff crypto first second bucket key expiresInSeconds hcredentials,
    OSSClient.namesObject_iff hmacSha1 now bucket key expiresInSeconds hcredentials⟩

/-- A key with a space, which OSS sends as it is. -/
theorem namesObject_generatePresignedUrl_space :
    NamesObject
        (OSSClient.sample.toS3Client.generatePresignedUrl sampleCrypto S3Client.midnight
          S3Client.midnight (ascii "docs") (ascii "a b.txt") 3600)
        (47 :: (ascii "docs" ++ 47 :: ascii "a b.txt"))
        (OSSClient.sample.toS3Client.signingParameters sampleCrypto S3Client.midnight
          S3Client.midnight (ascii "docs") (ascii "a b.txt") 3600) ∧
    NamesObject
        (OSSClient.generatePresignedUrl (fun _ _ => [0]) OSSClient.sample 1704153600
          (ascii "docs") (ascii "a b.txt") 3600)
        (47 :: ascii "a b.txt")
        (OSSClient.sample.signingParameters (fun _ _ => [0]) 1704153600 (ascii "docs")
          (ascii "a b.txt") 3600) ∧
    hostOf (splitUrl (OSSClient.generatePresignedUrl (fun _ _ => [0]) OSSClient.sample
      1704153600 (ascii "docs") (ascii "a b.txt") 3600)).authority =
        OSSClient.sample.bucketHost (ascii "docs") := by
  have hescape : ∀ text : Bytes, 37 ∉ text → ¬ HasEscape text := by
    rintro text hpercent ⟨high, low, -, -, hescape⟩
    exact hpercent (hescape.subset List.mem_cons_self)
  have hcredentials : OSSClient.sample.hasCredentials = true := rfl
  obtain ⟨hs3, hoss⟩ := namesObject_generatePresignedUrl_iff sampleCrypto (fun _ _ => [0])
    hcredentials S3Client.midnight S3Client.midnight 1704153600 (ascii "docs") (ascii "a b.txt")
    3600
  exact ⟨hs3.mpr ⟨by decide +kernel, by decide, by decide, hescape _ (by decide)⟩,
    hoss.mpr ⟨by decide +kernel, ⟨by decide, by decide, hescape _ (by decide)⟩,
      by decide, by decide, hescape _ (by decide)⟩⟩

/-- The path of an OSS URL ends in front of a `?` in the key. -/
theorem not_namesObject_generatePresignedUrl_question :
    ¬ (NamesObject
        (OSSClient.generatePresignedUrl (fun _ _ => [0]) OSSClient.sample 1704153600
          (ascii "docs") (ascii "q?.txt") 3600)
        (47 :: ascii "q?.txt")
        (OSSClient.sample.signingParameters (fun _ _ => [0]) 1704153600 (ascii "docs")
          (ascii "q?.txt") 3600) ∧
      hostOf (splitUrl (OSSClient.generatePresignedUrl (fun _ _ => [0]) OSSClient.sample
        1704153600 (ascii "docs") (ascii "q?.txt") 3600)).authority =
          OSSClient.sample.bucketHost (ascii "docs")) := by
  rintro ⟨⟨-, hpath, -⟩, -⟩
  have hcut : ¬ percentDecode (splitUrl (OSSClient.generatePresignedUrl (fun _ _ => [0])
      OSSClient.sample 1704153600 (ascii "docs") (ascii "q?.txt") 3600)).path =
        47 :: ascii "q?.txt" := by decide
  exact hcut hpath

end ElioP2P.Storage
