import ElioP2P.Storage.S3Client

/-!
# The dates of a signature

Both ways of signing read the clock once for the time of the request and once
more for the date that scopes the signing key.
-/

namespace ElioP2P.Storage

open ElioP2P.Library

namespace S3Client

/-- The date in front of the time of day is the date stamp exactly if both
readings fall on the same UTC day. -/
theorem getCurrentDate_eq_take_iff (first second : Instant) :
    getCurrentDate second = (getCurrentTimeIso first).take 8 ↔ first.day = second.day := by
  have htake : (getCurrentTimeIso first).take 8 = formatDate (civilDate first.day) := by
    rw [getCurrentTimeIso, List.append_assoc, List.append_assoc]
    exact List.take_left' first.length_formatDate
  rw [htake, getCurrentDate, eq_comm, Instant.formatDate_inj]

theorem signRequest_of_hasCredentials (crypto : Crypto) {client : S3Client}
    (hcredentials : client.hasCredentials = true) (first second : Instant)
    (method bucket key queryString : Bytes) (headers : List (Bytes × Bytes)) (payloadHash : Bytes) :
    ∃ signed, signRequest crypto client first second method bucket key queryString headers
        payloadHash = some signed ∧
      signed.amzDate = getCurrentTimeIso first ∧ signed.dateStamp = getCurrentDate second := by
  rw [signRequest, hcredentials]
  exact ⟨_, rfl, rfl, rfl⟩

theorem generatePresignedUrlInternal_of_hasCredentials (crypto : Crypto) {client : S3Client}
    (hcredentials : client.hasCredentials = true) (first second : Instant) (bucket key : Bytes)
    (expiresInSeconds : UInt64) (queryParams : Bytes) :
    generatePresignedUrlInternal crypto client first second bucket key expiresInSeconds
      queryParams =
      some (presign crypto client first second bucket key expiresInSeconds queryParams) := by
  rw [generatePresignedUrlInternal, hcredentials]
  rfl

/-- A signed request and a presigned URL are scoped to the date of the request
exactly if the clock does not pass midnight between its two readings. -/
theorem dateStamp_eq_take_iff (crypto : Crypto) {client : S3Client}
    (hcredentials : client.hasCredentials = true) (first second : Instant)
    (method bucket key queryString : Bytes) (headers : List (Bytes × Bytes)) (payloadHash : Bytes)
    (expiresInSeconds : UInt64) :
    ((∃ signed, signRequest crypto client first second method bucket key queryString headers
          payloadHash = some signed ∧ signed.dateStamp = signed.amzDate.take 8) ↔
        first.day = second.day) ∧
    ((∃ presigned, generatePresignedUrlInternal crypto client first second bucket key
          expiresInSeconds queryString = some presigned ∧
          presigned.dateStamp = presigned.amzDate.take 8) ↔
        first.day = second.day) := by
  constructor
  · obtain ⟨signed, hsigned, hamzDate, hdateStamp⟩ := signRequest_of_hasCredentials crypto
      hcredentials first second method bucket key queryString headers payloadHash
    rw [← getCurrentDate_eq_take_iff, hsigned, ← hamzDate, ← hdateStamp]
    simp
  · have hpresigned := generatePresignedUrlInternal_of_hasCredentials crypto hcredentials first
      second bucket key expiresInSeconds queryString
    rw [← getCurrentDate_eq_take_iff, hpresigned]
    simp only [Option.some.injEq, exists_eq_left', presign]

/-- The last tenth of a second of 1 January 2024. -/
def beforeMidnight : Instant := ⟨1704153599900000000, by decide, by decide⟩

def midnight : Instant := ⟨1704153600000000000, by decide, by decide⟩

example : getCurrentTimeIso beforeMidnight = ascii "20240101T235959Z" ∧
    getCurrentDate midnight = ascii "20240102" := by decide

/-- Both readings are before midnight. -/
theorem dateStamp_eq_take_before_midnight :
    (∃ signed, signRequest sampleCrypto sample beforeMidnight beforeMidnight (ascii "GET")
        (ascii "bucket") (ascii "key") [] [] [] = some signed ∧
        signed.dateStamp = signed.amzDate.take 8) ∧
    ∃ presigned, generatePresignedUrlInternal sampleCrypto sample beforeMidnight beforeMidnight
        (ascii "bucket") (ascii "key") 3600 [] = some presigned ∧
        presigned.dateStamp = presigned.amzDate.take 8 := by
  have hcredentials : sample.hasCredentials = true := rfl
  obtain ⟨hsigned, hpresigned⟩ := dateStamp_eq_take_iff sampleCrypto hcredentials beforeMidnight
    beforeMidnight (ascii "GET") (ascii "bucket") (ascii "key") [] [] [] 3600
  exact ⟨hsigned.mpr rfl, hpresigned.mpr rfl⟩

/-- Between the two readings a day has begun. -/
theorem dateStamp_ne_take_midnight :
    (¬ ∃ signed, signRequest sampleCrypto sample beforeMidnight midnight (ascii "GET")
        (ascii "bucket") (ascii "key") [] [] [] = some signed ∧
        signed.dateStamp = signed.amzDate.take 8) ∧
    ¬ ∃ presigned, generatePresignedUrlInternal sampleCrypto sample beforeMidnight midnight
        (ascii "bucket") (ascii "key") 3600 [] = some presigned ∧
        presigned.dateStamp = presigned.amzDate.take 8 := by
  have hdates : ¬ getCurrentDate midnight = (getCurrentTimeIso beforeMidnight).take 8 := by decide
  have hcredentials : sample.hasCredentials = true := rfl
  constructor
  · rintro ⟨signed, hsigned, hdate⟩
    obtain ⟨signed', hsigned', hamzDate, hdateStamp⟩ := signRequest_of_hasCredentials sampleCrypto
      hcredentials beforeMidnight midnight (ascii "GET") (ascii "bucket") (ascii "key") [] [] []
    obtain rfl := Option.some.inj (hsigned.symm.trans hsigned')
    rw [hamzDate, hdateStamp] at hdate
    exact hdates hdate
  · rintro ⟨presigned, hpresigned, hdate⟩
    rw [generatePresignedUrlInternal_of_hasCredentials sampleCrypto hcredentials] at hpresigned
    obtain rfl := Option.some.inj hpresigned
    exact hdates hdate

end S3Client

end ElioP2P.Storage
