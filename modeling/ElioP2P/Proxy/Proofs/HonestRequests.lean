import ElioP2P.Proxy.Proofs.Assembly
import ElioP2P.Proxy.Proofs.HonestServers

/-!
# Requests among honest peers

Whatever a request gets from the cache, from peers or from the origin is right,
and so is what it keeps and what it answers with.
-/

namespace ElioP2P.Proxy

open ElioP2P.Library ElioP2P.Library.Coroutine ElioP2P.Cache ElioP2P.Cache.ChunkManager
open ElioP2P.P2P hiding Quiet

/-- What a request may rely on for its object: the `#meta` lines that are right
describe it well, and what the origin tells of it is right. -/
structure Subject (A : Terms) (handler : RequestHandler) (info : CacheKeyInfo)
    (good : ObjectInfo → Prop) : Prop where
  parsed : ∀ {line obj}, A.truth.right (metaKey info.fullObjectKey) line →
    parseMeta line = some obj → good obj
  line : ∀ {obj}, good obj → A.truth.right (metaKey info.fullObjectKey) (serializeMeta obj)
  head : ∀ {head : ObjectMetadata},
    A.origin (.headObject info.bucket info.objectKey) (some head : Option ObjectMetadata) →
      good { size := head.size, etag := head.etag }
  entered : ∀ {obj base chunkIndex data}, good obj → chunkIndex * handler.chunkSize < obj.size →
    good base → good { base with
      chunkHashes := (resizeHashes base.chunkHashes chunkIndex).set chunkIndex (A.hash.hex data) }
  chunk : ∀ {obj chunkIndex data}, good obj → chunkIndex * handler.chunkSize < obj.size →
    A.origin (.getObject info.bucket info.objectKey (chunkIndex * handler.chunkSize)
      (wantedSize handler obj chunkIndex)) (some data : Option Bytes) →
        A.truth.right (chunkIdOf handler info chunkIndex) data

def RightChunks (A : Terms) (handler : RequestHandler) (info : CacheKeyInfo) (first : Nat)
    (chunks : List FetchedChunk) : Prop :=
  chunks.map FetchedChunk.index = List.range' first chunks.length ∧
    ∀ chunk ∈ chunks, A.truth.right (chunkIdOf handler info chunk.index) chunk.data

def Successful (handled : Handled) : Prop :=
  handled.response.statusCode = 200 ∨ handled.response.statusCode = 206

/-- How `handle_request` may answer with status 200 or 206. -/
inductive Answered (A : Terms) (handler : RequestHandler) (request : HttpRequest)
    (info : CacheKeyInfo) (good : ObjectInfo → Prop) : Handled → Prop
  | head {obj : ObjectInfo} (hmethod : request.method = ascii "HEAD") (hgood : good obj) :
      Answered A handler request info good { response := headResponse obj }
  | empty {obj : ObjectInfo} (hmethod : request.method = ascii "GET") (hgood : good obj)
      (hsize : obj.size = 0) (hrange : request.hasHeader (ascii "Range") = false) :
      Answered A handler request info good { response := emptyObject }
  | chunks {obj : ObjectInfo} {chunks : List FetchedChunk} {a : Assembly}
      (hmethod : request.method = ascii "GET") (hgood : good obj) (hsize : 0 < obj.size)
      (hvalid : (requestedRange request obj.size).valid = true)
      (hright : RightChunks A handler info
        ((requestedRange request obj.size).start / handler.chunkSize) chunks)
      (hcount : (requestedRange request obj.size).start / handler.chunkSize + chunks.length =
        (requestedRange request obj.size).stop / handler.chunkSize + 1)
      (ha : a = chunks.foldl (·.add handler.chunkSize (requestedRange request obj.size)) {}) :
      Answered A handler request info good
        { response := chunkResponse (request.hasHeader (ascii "Range"))
            (requestedRange request obj.size) obj a
          fetched := a.fetched
          outOfBounds := a.outOfBounds }

section Requests

variable {A : Terms} {handler : RequestHandler} {fuel : Nat} {job : Job}
  {h : List (Event nodeSignature)} {s : Node} {info : CacheKeyInfo} {good : ObjectInfo → Prop}

/-! ## The cache -/

theorem follows_cachedChunk (hs : Upright A.truth s) (chunkId : Bytes) :
    (cachedChunk fuel handler chunkId).Follows A.discipline job
      (fun _ data s => Upright A.truth s ∧ Fetched A chunkId data) h s := by
  unfold cachedChunk
  split
  · exact (follows_loadChunk hs chunkId).mono fun _ _ _ hpost => hpost.2
  · exact ⟨hs, fetched_none chunkId⟩

theorem follows_cacheChunk (hs : Upright A.truth s) {chunkId data : Bytes}
    (hright : A.truth.right chunkId data) :
    (cacheChunk A.hash fuel handler chunkId data).Follows A.discipline job
      (fun _ _ s => Upright A.truth s) h s := by
  unfold cacheChunk
  split
  · exact (follows_storeChunk hs hright).seq fun _ _ _ hpost => hpost.2
  · exact hs

theorem follows_announceLocalChunk (hs : Upright A.truth s) (chunkId : Bytes) :
    (announceLocalChunk handler chunkId).Follows A.discipline job
      (fun _ _ s => Upright A.truth s) h s := by
  unfold announceLocalChunk
  split
  · refine (follows_lock hs _).seq ?_
    rintro h' _ s₁ ⟨-, hs₁⟩
    apply follows_atomically
    intro value s' hannounce
    cases hannounce
    exact ⟨fun _ _ howns => howns, hs₁.discovery _⟩
  · exact hs

theorem follows_downloadFromPeers (hjob : job ≠ .chunkConnection) (hs : Upright A.truth s)
    (transfer : TransferRequest) :
    (downloadFromPeers A.hash handler transfer).Follows A.discipline job
      (fun _ data s => Upright A.truth s ∧ Fetched A transfer.chunkId data) h s := by
  unfold downloadFromPeers
  split
  · refine (follows_downloadChunk hjob hs transfer).seq ?_
    rintro h' data s' ⟨hs', hfetched⟩
    refine ⟨hs', fun bytes hbytes => hfetched bytes ?_⟩
    exact (Option.filter_eq_some_iff.mp hbytes).1
  · exact ⟨hs, fetched_none _⟩

/-! ## The size of the object -/

def Known (good : ObjectInfo → Prop) (obj : Option ObjectInfo) : Prop :=
  ∀ known, obj = some known → good known

theorem known_some {obj : ObjectInfo} (h : good obj) : Known good (some obj) := by
  intro known heq
  cases heq
  exact h

theorem follows_publishMeta (hsubject : Subject A handler info good) (hs : Upright A.truth s)
    {obj : ObjectInfo} (hgood : good obj) :
    (publishMeta A.hash fuel handler info obj).Follows A.discipline job
      (fun _ _ s => Upright A.truth s) h s := by
  unfold publishMeta
  split
  · exact (follows_cacheChunk hs (hsubject.line hgood)).seq
      fun _ _ _ hs' => follows_announceLocalChunk hs' _
  · exact hs

theorem Terms.follows_headObjectInfo (hsubject : Subject A handler info good)
    (hs : Upright A.truth s) :
    (headObjectInfo A.hash fuel handler info).Follows A.discipline job
      (fun _ obj s => Upright A.truth s ∧ Known good obj) h s := by
  unfold headObjectInfo
  split
  · exact ⟨hs, nofun⟩
  · refine Follows.seq (follows_ask hs trivial) ?_
    rintro h' answer s' ⟨-, hs', -, hanswer⟩
    cases answer with
    | none => exact ⟨hs', nofun⟩
    | some head =>
        have hgood := hsubject.head hanswer
        exact (follows_publishMeta hsubject hs' hgood).seq
          fun _ _ _ hs'' => ⟨hs'', known_some hgood⟩

theorem Terms.follows_getObjectInfo (hsubject : Subject A handler info good)
    (hjob : job ≠ .chunkConnection) (hs : Upright A.truth s) :
    (getObjectInfo A.hash fuel handler info).Follows A.discipline job
      (fun _ obj s => Upright A.truth s ∧ Known good obj) h s := by
  unfold getObjectInfo
  refine (follows_cachedChunk hs _).seq ?_
  rintro h' cached s' ⟨hs', hcached⟩
  simp only
  split
  · rename_i obj hparsed
    obtain ⟨line, hline, hobj⟩ := Option.bind_eq_some_iff.mp hparsed
    exact ⟨hs', known_some (hsubject.parsed (hcached line hline) hobj)⟩
  · refine (follows_downloadFromPeers hjob hs' _).seq ?_
    rintro h'' data s'' ⟨hs'', hfetched⟩
    split
    · rename_i line obj hparsed
      obtain ⟨line', hdata, hobj⟩ := Option.bind_eq_some_iff.mp hparsed
      obtain ⟨obj', hobj', heq⟩ := Option.map_eq_some_iff.mp hobj
      cases heq
      have hright := hfetched line hdata
      exact (follows_cacheChunk hs'' hright).seq
        fun _ _ _ hs₃ => ⟨hs₃, known_some (hsubject.parsed hright hobj')⟩
    · exact Terms.follows_headObjectInfo hsubject hs''

/-! ## Chunks -/

section Chunk

variable {obj : ObjectInfo} {chunkIndex : Nat}

theorem good_candidates (hsubject : Subject A handler info good) (hs : Upright A.truth s)
    (hgood : good obj) {base : ObjectInfo} (hbase : base ∈ candidates s info.fullObjectKey obj) :
    good base := by
  have hline : ∀ line, Copy s.cache (metaKey info.fullObjectKey) line → ∀ read,
      parseMeta line = some read → good read :=
    fun line hcopy read hread => hsubject.parsed (hs.copies _ line hcopy) hread
  unfold candidates at hbase
  cases hmemory : s.cache.memoryCache.dataOf (metaKey info.fullObjectKey) with
  | some line =>
      rw [hmemory, Option.elim_some, List.mem_singleton] at hbase
      rw [hbase]
      cases hread : parseMeta line with
      | none => exact hgood
      | some read => exact hline line (Or.inl hmemory) read hread
  | none =>
      rw [hmemory, Option.elim_none, List.mem_cons] at hbase
      rcases hbase with rfl | hdisk
      · exact hgood
      · obtain ⟨line, hload, hread⟩ := Option.bind_eq_some_iff.mp (Option.mem_toList.mp hdisk)
        exact hline line (Or.inr hload) base hread

theorem upright_enters (hsubject : Subject A handler info good) (hs : Upright A.truth s)
    (hgood : good obj) (hindex : chunkIndex * handler.chunkSize < obj.size) {base : ObjectInfo}
    {data : Bytes} {s' : Node} (hbase : base ∈ candidates s info.fullObjectKey obj)
    (henters : Enters info base chunkIndex (A.hash.hex data) s s') : Upright A.truth s' where
  owned := by
    rw [henters.transfer]
    exact hs.owned
  faultless := henters.setup.faultless hs.faultless
  copies id data' hcopy := by
    rcases henters.copies id data' hcopy with hold | ⟨hfile, rfl⟩
    · exact hs.copies id data' hold
    · apply A.truth.sameFile hfile
      exact hsubject.line (hsubject.entered hgood hindex (good_candidates hsubject hs hgood hbase))

theorem follows_recordHash (hsubject : Subject A handler info good) (hs : Upright A.truth s)
    (hgood : good obj) (hindex : chunkIndex * handler.chunkSize < obj.size) (data : Bytes) :
    (recordHash A.hash fuel handler info obj chunkIndex (A.hash.hex data)).Follows A.discipline job
      (fun _ _ s => Upright A.truth s) h s := by
  refine (follows_lock hs _).seq ?_
  rintro h' _ s₁ ⟨-, hs₁⟩
  have henter : (atomically (S := nodeSignature)
      (enterHash A.hash fuel info obj chunkIndex (A.hash.hex data))).Follows A.discipline job
        (fun _ _ s => Upright A.truth s) h' s₁ := by
    apply follows_atomically
    intro entered s₂ henter
    rcases enterHash_spec hs₁.faultless henter with hquiet | ⟨base, hbase, henters⟩
    · exact ⟨keepsContexts_of_same hquiet.transfer, hs₁.quiet hquiet⟩
    · exact ⟨keepsContexts_of_same henters.transfer,
        upright_enters hsubject hs₁ hgood hindex hbase henters⟩
  refine henter.seq fun h'' entered s₂ hs₂ => ?_
  split
  · exact follows_announceLocalChunk hs₂ _
  · exact hs₂

theorem Terms.follows_fetchFromStorage (hsubject : Subject A handler info good)
    (hs : Upright A.truth s) (hgood : good obj)
    (hindex : chunkIndex * handler.chunkSize < obj.size) :
    (fetchFromStorage A.hash fuel handler info obj chunkIndex).Follows A.discipline job
      (fun _ fetched s =>
        Upright A.truth s ∧ Fetched A (chunkIdOf handler info chunkIndex) fetched.1)
      h s := by
  unfold fetchFromStorage
  split
  · exact ⟨hs, fetched_none _⟩
  · refine Follows.seq (follows_ask hs trivial) ?_
    rintro h' answer s' ⟨-, hs', -, hanswer⟩
    cases answer with
    | none => exact ⟨hs', fetched_none _⟩
    | some data =>
        have hright := hsubject.chunk hgood hindex hanswer
        have hkept : (keepFromStorage A.hash fuel handler info obj chunkIndex data).Follows
            A.discipline job (fun _ _ s => Upright A.truth s) h' s' := by
          unfold keepFromStorage
          split
          · exact (follows_cacheChunk hs' hright).seq
              fun _ _ _ hs'' => follows_recordHash hsubject hs'' hgood hindex data
          · exact hs'
        refine hkept.seq fun _ _ _ hs'' => (follows_announceLocalChunk hs'' _).seq ?_
        exact fun _ _ _ hs₃ => ⟨hs₃, fetched_some hright⟩

theorem Terms.follows_fetchChunk (hsubject : Subject A handler info good)
    (hjob : job ≠ .chunkConnection) (hs : Upright A.truth s) (hgood : good obj)
    (hindex : chunkIndex * handler.chunkSize < obj.size) :
    (fetchChunk A.hash fuel handler info obj chunkIndex).Follows A.discipline job
      (fun _ fetched s =>
        Upright A.truth s ∧ Fetched A (chunkIdOf handler info chunkIndex) fetched.1)
      h s := by
  unfold fetchChunk
  refine (follows_cachedChunk hs _).seq ?_
  rintro h' cached s' ⟨hs', hcached⟩
  cases cached with
  | some data => exact ⟨hs', hcached⟩
  | none =>
      refine (follows_downloadFromPeers hjob hs' _).seq ?_
      rintro h'' data s'' ⟨hs'', hfetched⟩
      cases data with
      | some data =>
          refine (follows_cacheChunk hs'' (hfetched data rfl)).seq fun _ _ _ hs₃ => ?_
          exact (follows_announceLocalChunk hs₃ _).seq fun _ _ _ hs₄ => ⟨hs₄, hfetched⟩
      | none => exact Terms.follows_fetchFromStorage hsubject hs'' hgood hindex

end Chunk

/-! ## The answer -/

theorem rightChunks_nil (first : Nat) : RightChunks A handler info first [] := ⟨rfl, nofun⟩

theorem RightChunks.concat {first : Nat} {chunks : List FetchedChunk} {data : Bytes}
    (hchunks : RightChunks A handler info first chunks)
    (hright : A.truth.right (chunkIdOf handler info (first + chunks.length)) data)
    (source : ChunkSource) :
    RightChunks A handler info first (chunks ++ [⟨first + chunks.length, data, source⟩]) := by
  refine ⟨?_, fun chunk hchunk => ?_⟩
  · rw [List.map_append, hchunks.1, List.length_append, List.length_singleton, List.range'_concat,
      Nat.one_mul]
    rfl
  · rcases List.mem_append.mp hchunk with hold | hnew
    · exact hchunks.2 chunk hold
    · rw [List.mem_singleton.mp hnew]
      exact hright

theorem Terms.follows_assembleChunks (hsubject : Subject A handler info good)
    (hjob : job ≠ .chunkConnection) (hs : Upright A.truth s) {obj : ObjectInfo} (hgood : good obj)
    {range : ByteRange} (hinside : range.stop < obj.size) {first rounds : Nat}
    {chunks : List FetchedChunk} (hchunks : RightChunks A handler info first chunks)
    (hrounds : first + chunks.length + rounds = range.stop / handler.chunkSize + 1) :
    (assembleChunks handler.chunkSize range
      (fun idx a => Coroutine.reveal (S := nodeSignature) (some ⟨info, obj, idx, a, none⟩))
      (fetchChunk A.hash fuel handler info obj) rounds (first + chunks.length)
      (chunks.foldl (·.add handler.chunkSize range) {})).Follows A.discipline job
        (fun _ assembled s => Upright A.truth s ∧ ∀ a, assembled = some a →
          ∃ chunks, RightChunks A handler info first chunks ∧
            first + chunks.length = range.stop / handler.chunkSize + 1 ∧
            a = chunks.foldl (·.add handler.chunkSize range) {}) h s := by
  induction rounds generalizing chunks h s with
  | zero =>
      refine ⟨hs, fun a ha => ⟨chunks, hchunks, hrounds, ?_⟩⟩
      cases ha
      rfl
  | succ rounds ih =>
      have hindex : (first + chunks.length) * handler.chunkSize < obj.size := by
        have hle := Nat.mul_le_mul_right handler.chunkSize
          (show first + chunks.length ≤ range.stop / handler.chunkSize by omega)
        have hdiv := Nat.div_mul_le_self range.stop handler.chunkSize
        omega
      unfold assembleChunks
      refine (Terms.follows_fetchChunk hsubject hjob hs hgood hindex).seq ?_
      rintro h' fetched s' ⟨hs', hfetched⟩
      obtain ⟨data, source⟩ := fetched
      cases data with
      | none => exact ⟨hs', fun a ha => by cases ha⟩
      | some data =>
          have hnext := hchunks.concat (hfetched data rfl) source
          have hgoes := ih (h := h') hs' hnext
            (by rw [List.length_append, List.length_singleton]; omega)
          rw [List.foldl_concat, List.length_append, List.length_singleton,
            ← Nat.add_assoc] at hgoes
          exact hgoes

theorem unsuccessful {response : HttpResponse} {P : Prop} (code : Nat)
    (hcode : response.statusCode = code) (hother : code ≠ 200 ∧ code ≠ 206) :
    Successful { response := response } → P := by
  rintro (hwhole | hpart)
  · exact absurd (hcode.symm.trans hwhole) hother.1
  · exact absurd (hcode.symm.trans hpart) hother.2

theorem follows_serveObject (hsubject : Subject A handler info good) (hjob : job ≠ .chunkConnection)
    (hs : Upright A.truth s) {obj : ObjectInfo} (hgood : good obj) {request : HttpRequest}
    (hmethod : request.method = ascii "GET") :
    (serveObject handler.chunkSize
      (fun frame => Coroutine.reveal (S := nodeSignature) (some frame))
      (fetchChunk A.hash fuel handler) request info obj).Follows A.discipline job
        (fun _ handled s => Upright A.truth s ∧ (Successful handled →
          Answered A handler request info good handled)) h s := by
  simp only [serveObject]
  split
  · exact ⟨hs, unsuccessful 416 rfl (by decide)⟩
  rename_i hvalid
  have hsatisfiable : 0 < obj.size → (requestedRange request obj.size).valid = true := by
    intro hpos
    by_cases hrange : request.hasHeader (ascii "Range") = true
    · simpa [hrange] using hvalid
    · simp [requestedRange, hrange, hpos]
  split
  · rename_i hempty
    refine ⟨hs, fun _ => .empty hmethod hgood hempty ?_⟩
    by_contra hrange
    have hheader : request.hasHeader (ascii "Range") = true := by simpa using hrange
    rw [hheader, hempty] at hvalid
    simp [requestedRange, hheader, parseRangeHeader] at hvalid
  rename_i hempty
  have hpos : 0 < obj.size := Nat.pos_of_ne_zero hempty
  have hbounds := requestedRange_bounds hpos (hsatisfiable hpos)
  have hfirst := Nat.div_le_div_right (c := handler.chunkSize) hbounds.1
  refine Follows.seq (Terms.follows_assembleChunks hsubject hjob hs hgood hbounds.2
    (rightChunks_nil ((requestedRange request obj.size).start / handler.chunkSize)) ?_) ?_
  · rw [List.length_nil]
    omega
  · rintro h' assembled s' ⟨hs', hassembled⟩
    cases assembled with
    | none => exact ⟨hs', unsuccessful 502 rfl (by decide)⟩
    | some a =>
        obtain ⟨chunks, hchunks, hcount, ha⟩ := hassembled a rfl
        exact ⟨hs', fun _ => .chunks hmethod hgood hpos (hsatisfiable hpos) hchunks hcount ha⟩

theorem Terms.follows_handleRequest {request : HttpRequest}
    {good : CacheKeyInfo → ObjectInfo → Prop}
    (hsubject : ∀ info, parseCacheKey request = some info → Subject A handler info (good info))
    (hs : Upright A.truth s) :
    (handleRequest A.hash fuel handler request).Follows A.discipline (.request request)
      (fun _ handled s => Upright A.truth s ∧ (Successful handled → ∃ info,
        parseCacheKey request = some info ∧ Answered A handler request info (good info) handled))
      [] s := by
  have hjob : Job.request request ≠ .chunkConnection := nofun
  unfold handleRequest
  simp only [handleRequestWith]
  split
  · exact ⟨hs, unsuccessful 405 rfl (by decide)⟩
  rename_i hmethod
  split
  · exact ⟨hs, unsuccessful 400 rfl (by decide)⟩
  rename_i info hparsed
  split
  · exact ⟨hs, unsuccessful 403 rfl (by decide)⟩
  have hadmitted := hsubject info hparsed
  refine (Terms.follows_getObjectInfo hadmitted hjob hs).seq ?_
  rintro h obj s' ⟨hs', hknown⟩
  cases obj with
  | none => exact ⟨hs', unsuccessful 404 rfl (by decide)⟩
  | some obj =>
      have hgood := hknown obj rfl
      simp only
      split
      · rename_i hhead
        exact ⟨hs', fun _ => ⟨info, hparsed, .head (by simpa using hhead) hgood⟩⟩
      rename_i hhead
      have hget : request.method = ascii "GET" := by
        by_contra hne
        apply hmethod
        simp [hne, hhead]
      refine (follows_serveObject hadmitted hjob hs' hgood hget).mono ?_
      rintro h' handled s'' ⟨hs'', hanswered⟩
      exact ⟨hs'', fun hsuccess => ⟨info, hparsed, hanswered hsuccess⟩⟩

/-! ## The jobs of a node -/

theorem enters_discipline
    (hrequests : ∀ request s, A.requests request → Upright A.truth s →
      (handleRequest A.hash fuel handler request).Follows A.discipline (.request request)
        (fun _ handled s => Upright A.truth s ∧ A.responses request handled) [] s) :
    (nodeProgram A.hash fuel handler).Enters A.discipline A.Startable := by
  intro job s hjob hs
  cases job with
  | request request =>
      refine (hrequests request s hjob hs).seq ?_
      rintro h handled s' ⟨hs', hresponse⟩
      refine ⟨hs', fun handled' heq => ?_⟩
      cases heq
      exact hresponse
  | downloadFromPeer ctx peer expectedSha256 =>
      obtain ⟨chunkId, howns⟩ := hjob
      have hother : Job.downloadFromPeer ctx peer expectedSha256 ≠ .chunkConnection := nofun
      refine (follows_downloadFromPeer hother howns hs peer expectedSha256).seq ?_
      rintro h result s' ⟨hs', howns', hright, new, rfl, hdelivered⟩
      refine ⟨hs', fun result' heq hsuccess => ?_, fun result' heq hsuccess => ?_⟩
      · cases heq
        exact hdelivered hsuccess
      · cases heq
        exact ⟨chunkId, howns', hright hsuccess⟩
  | downloadChunk request =>
      have hother : Job.downloadChunk request ≠ .chunkConnection := nofun
      refine (follows_downloadChunk hother hs request).seq ?_
      rintro h result s' ⟨hs', hfetched⟩
      refine ⟨hs', fun data heq => ?_⟩
      cases heq
      exact hfetched data rfl
  | uploadChunk chunkId data peer =>
      have hother : Job.uploadChunk chunkId data peer ≠ .chunkConnection := nofun
      exact (follows_uploadChunk hother hjob.1 hjob.2 hs peer).seq fun _ _ _ hs' => ⟨hs', trivial⟩
  | chunkConnection =>
      exact (follows_handleChunkRequest hs).seq fun _ _ _ hs' => ⟨hs', trivial⟩
  | cancelTransfer chunkId =>
      have hchanges := changesOnly_cancelTransfer hs.owned chunkId
      have hcancelled : (onTransfer fun t => ((), t.cancelTransfer chunkId)).Follows A.discipline
          (.cancelTransfer chunkId) (fun _ _ s => Upright A.truth s) [] s :=
        follows_onTransfer hchanges.owns (hs.transfer hchanges.owned)
      exact hcancelled.seq fun _ _ _ hs' => ⟨hs', trivial⟩
  | discovery op =>
      have happlied : (atomically (S := nodeSignature) fun s : Node =>
          some ((), { s with discovery := s.discovery.apply op })).Follows A.discipline
          (.discovery op) (fun _ _ s => Upright A.truth s) [] s := by
        apply follows_atomically
        intro value s' hvalue
        cases hvalue
        exact ⟨fun _ _ howns => howns, hs.discovery _⟩
      exact happlied.seq fun _ _ _ hs' => ⟨hs', trivial⟩

end Requests

end ElioP2P.Proxy
