import ElioP2P.Library.Decimals
import ElioP2P.Library.Runs
import ElioP2P.P2P.Proofs.Delivery
import ElioP2P.Proxy.Proofs.Assembly
import ElioP2P.Proxy.Proofs.Requests

/-!
# The list of chunk hashes

`fetch_chunk` enters the hash of each chunk it gets from the origin into the
object's `#meta` chunk, a line of words.  An entry that is still empty is not a
word, so reading the line back drops it and moves all later entries forward.
The list therefore stays true as long as it grows at its end.
-/

namespace ElioP2P.Proxy

open ElioP2P.Library ElioP2P.Library.Coroutine ElioP2P.Cache ElioP2P.Cache.ChunkManager

/-! ## The line format -/

def IsWord (text : Bytes) : Prop := text ≠ [] ∧ ∀ b ∈ text, isSpace b = false

instance (text : Bytes) : Decidable (IsWord text) :=
  decidable_of_iff (text ≠ [] ∧ (text.all fun b => !isSpace b) = true) (by simp [IsWord])

theorem extractWords_flatMap {word : Bytes} (hword : IsWord word) {words : List Bytes}
    (hwords : ∀ w ∈ words, IsWord w) :
    extractWords (word ++ words.flatMap (ascii " " ++ ·)) = word :: words := by
  induction words generalizing word with
  | nil =>
      rw [List.flatMap_nil, List.append_nil]
      exact extractWords_word hword.2 hword.1
  | cons next words ih =>
      have hnext := ih (hwords next (by simp)) fun w hw => hwords w (by simp [hw])
      rw [List.flatMap_cons, List.append_assoc]
      change extractWords (word ++ 32 :: (next ++ words.flatMap (ascii " " ++ ·))) = _
      rw [extractWords_word_space hword.2 hword.1 (by decide), hnext]

theorem extractUInt64_serializeMeta {obj : ObjectInfo} (hsize : obj.size < 2 ^ 64) :
    extractUInt64 (serializeMeta obj) =
      some (obj.size, 32 :: (obj.etag ++ obj.chunkHashes.flatMap (ascii " " ++ ·))) := by
  have hline : serializeMeta obj = decimal obj.size ++
      32 :: (obj.etag ++ obj.chunkHashes.flatMap (ascii " " ++ ·)) := by
    simp only [serializeMeta, List.append_assoc]
    rfl
  have hdigits : (serializeMeta obj).dropWhile isSpace = serializeMeta obj := by
    rw [hline, dropWhile_isSpace_decimal]
  rw [extractUInt64, hdigits, hline, unsignedPrefix_decimal hsize (by simp [isDigit])]

theorem parseMeta_serializeMeta {obj : ObjectInfo} (hsize : obj.size < 2 ^ 64)
    (hetag : IsWord obj.etag) (hhashes : ∀ hash ∈ obj.chunkHashes, IsWord hash) :
    parseMeta (serializeMeta obj) = some obj := by
  have hwords : extractWords (32 :: (obj.etag ++ obj.chunkHashes.flatMap (ascii " " ++ ·)))
      = obj.etag :: obj.chunkHashes := by
    rw [extractWords_space (by decide), extractWords_flatMap hetag hhashes]
  rw [parseMeta, extractUInt64_serializeMeta hsize, Option.map_some]
  simp only [hwords]

/-! ## True lists -/

section HashList

variable {H : Sha256} {fuel : Nat} {handler : RequestHandler} {content key : Bytes}

structure HashListOk (H : Sha256) (handler : RequestHandler) (content : Bytes) (obj : ObjectInfo) :
    Prop where
  size : obj.size = content.length
  etag : IsWord obj.etag
  hashes : ∀ i hash, obj.chunkHashes[i]? = some hash →
    hash = H.hex (chunkOf content handler.chunkSize i)

theorem isWord_hex (data : Bytes) : IsWord (H.hex data) := ⟨H.hex_ne_nil data, H.hex_no_space data⟩

theorem HashListOk.parseMeta_serializeMeta {obj : ObjectInfo} (hsize : content.length < 2 ^ 64)
    (h : HashListOk H handler content obj) : parseMeta (serializeMeta obj) = some obj := by
  apply Proxy.parseMeta_serializeMeta
  · rw [h.size]
    exact hsize
  · exact h.etag
  · intro hash hmem
    obtain ⟨i, hi⟩ := List.mem_iff_getElem?.mp hmem
    rw [h.hashes i hash hi]
    exact isWord_hex _

/-- An empty place right behind a true list is where its next entry goes; all
other places are taken. -/
theorem HashListOk.enter {obj : ObjectInfo} (h : HashListOk H handler content obj)
    {chunkIndex : Nat}
    (hgap : chunkIndex ≤ obj.chunkHashes.length)
    (hvacant : (resizeHashes obj.chunkHashes chunkIndex).getD chunkIndex [] = []) :
    HashListOk H handler content { obj with
      chunkHashes := (resizeHashes obj.chunkHashes chunkIndex).set chunkIndex
        (H.hex (chunkOf content handler.chunkSize chunkIndex)) } := by
  have hend : chunkIndex = obj.chunkHashes.length := by
    by_contra hne
    have hlt : chunkIndex < obj.chunkHashes.length := by omega
    have hentry := h.hashes chunkIndex _ (List.getElem?_eq_getElem hlt)
    rw [resizeHashes, List.getD_eq_getElem?_getD, List.getElem?_append_left hlt,
      List.getElem?_eq_getElem hlt, Option.getD_some, hentry] at hvacant
    exact H.hex_ne_nil _ hvacant
  have hset : (resizeHashes obj.chunkHashes chunkIndex).set chunkIndex
      (H.hex (chunkOf content handler.chunkSize chunkIndex))
        = obj.chunkHashes ++ [H.hex (chunkOf content handler.chunkSize chunkIndex)] := by
    have hone : chunkIndex + 1 - obj.chunkHashes.length = 1 := by omega
    rw [resizeHashes, hone, List.set_append_right _ _ (by omega), hend, Nat.sub_self]
    rfl
  refine ⟨h.size, h.etag, ?_⟩
  intro i hash hi
  simp only at hi
  rw [hset] at hi
  rcases Nat.lt_or_ge i obj.chunkHashes.length with hlt | hge
  · rw [List.getElem?_append_left hlt] at hi
    exact h.hashes i hash hi
  · rw [List.getElem?_append_right hge] at hi
    have hi0 : i = chunkIndex := by
      have := (List.getElem?_eq_some_iff.mp hi).1
      simp only [List.length_cons, List.length_nil] at this
      omega
    subst hi0
    rw [hend, Nat.sub_self] at hi
    simp only [List.getElem?_cons_zero, Option.some.injEq] at hi
    rw [← hi, hend]

/-- The chunk is what the range GET for it asks for. -/
theorem segment_wantedSize {obj : ObjectInfo} (hsize : obj.size = content.length) (i : Nat) :
    segment content (i * handler.chunkSize)
        (i * handler.chunkSize + wantedSize handler obj i)
      = chunkOf content handler.chunkSize i := by
  unfold chunkOf segment wantedSize
  rw [hsize, Nat.succ_mul]
  rcases Nat.lt_or_ge content.length (i * handler.chunkSize) with hlt | hge
  · rw [List.drop_eq_nil_of_le (by simp; omega), List.drop_eq_nil_of_le (by simp; omega)]
  · rcases Nat.le_total handler.chunkSize (content.length - i * handler.chunkSize) with hin | hout
    · rw [Nat.min_eq_left hin]
    · rw [Nat.min_eq_right hout, List.take_of_length_le (by omega),
        List.take_of_length_le (by omega)]

/-! ## What the steps of a run have to meet -/

def Serves (content key : Bytes) (reply : (e : External) → e.Answer) : Prop :=
  ∀ bucket objectKey offset length data, bucket ++ ascii "/" ++ objectKey = key →
    (reply (.getObject bucket objectKey offset length) : Option Bytes) = some data →
      data = segment content offset (offset + length)

def Describes (content key : Bytes) (reply : (e : External) → e.Answer) : Prop :=
  ∀ bucket objectKey (head : ObjectMetadata), bucket ++ ascii "/" ++ objectKey = key →
    (reply (.headObject bucket objectKey) : Option ObjectMetadata) = some head →
      head.size = content.length ∧ IsWord head.etag

def OriginKeeps (content key : Bytes) : Action nodeSignature → Prop
  | .start _ => True
  | .resume _ reply => Serves content key reply ∧ Describes content key reply

/-- A request, and not for another object whose `#meta` chunk has the same
file. -/
def OwnFile (key : Bytes) : Job → Prop
  | .request request => ∀ info ∈ parseCacheKey request, info.fullObjectKey ≠ key →
      ¬ SameFile (metaKey info.fullObjectKey) (metaKey key)
  | _ => False

theorem OwnFile.key_eq {key : Bytes} {request : HttpRequest} {info : CacheKeyInfo}
    (h : OwnFile key (.request request)) (hinfo : parseCacheKey request = some info)
    (hfile : SameFile (metaKey key) (metaKey info.fullObjectKey)) : info.fullObjectKey = key := by
  by_contra hne
  exact h info hinfo hne hfile.symm

def Extends (key : Bytes) (s : Node) : Access → Prop
  | .record fullObjectKey obj chunkIndex _ => fullObjectKey = key →
      ∀ base ∈ candidates s fullObjectKey obj, chunkIndex ≤ base.chunkHashes.length
  | .load _ | .store _ _ | .announce _ => True

instance (s : Node) : ∀ access, Decidable (Extends key s access)
  | .record fullObjectKey obj chunkIndex _ => inferInstanceAs (Decidable (fullObjectKey = key →
      ∀ base ∈ candidates s fullObjectKey obj, chunkIndex ≤ base.chunkHashes.length))
  | .load _ | .store _ _ | .announce _ => inferInstanceAs (Decidable True)

/-- No hash is recorded that would leave a gap in the list. -/
def NoGap (key : Bytes) : System nodeSignature → Action nodeSignature → Prop :=
  AtTurn (Extends key)

instance (sys : System nodeSignature) (action : Action nodeSignature) :
    Decidable (NoGap key sys action) :=
  inferInstanceAs (Decidable (AtTurn _ sys action))

def OnlyRequests (key : Bytes) : Action nodeSignature → Prop
  | .start job => OwnFile key job
  | .resume _ _ => True

/-! ## The contract -/

def TrueLine (H : Sha256) (handler : RequestHandler) (content line : Bytes) : Prop :=
  ∃ obj, parseMeta line = some obj ∧ HashListOk H handler content obj

def hashListInvariant (H : Sha256) (handler : RequestHandler) (content key : Bytes) :
    RequestInvariant where
  shared s := s.cache.fileSystem.Faultless ∧
    ∀ d, Copy s.cache (metaKey key) d → TrueLine H handler content d
  object info obj := info.fullObjectKey = key → HashListOk H handler content obj
  chunk _ _ _ := True
  line info line := info.fullObjectKey = key → TrueLine H handler content line
  origin info chunkIndex data := info.fullObjectKey = key →
    data = chunkOf content handler.chunkSize chunkIndex

def hashListSpec (H : Sha256) (handler : RequestHandler) (content key : Bytes) :
    Spec nodeSignature where
  holds := (hashListInvariant H handler content key).holds
  admits _ _ _ s w reply :=
    match w, reply with
    | .external (.headObject bucket objectKey), answer =>
        ∀ head : ObjectMetadata, bucket ++ ascii "/" ++ objectKey = key →
          (answer : Option ObjectMetadata) = some head →
            head.size = content.length ∧ IsWord head.etag
    | .external (.getObject bucket objectKey offset length), answer =>
        ∀ data, bucket ++ ascii "/" ++ objectKey = key → (answer : Option Bytes) = some data →
          data = segment content offset (offset + length)
    | .external (.lock access), _ => Extends key s access
    | _, _ => True
  changes _ _ _ := True
  allowed := OwnFile key
  post _ _ _ _ s := (hashListInvariant H handler content key).shared s
  joined _ _ := True

theorem HashListOk.trueLine {obj : ObjectInfo} (hsize : content.length < 2 ^ 64)
    (h : HashListOk H handler content obj) : TrueLine H handler content (serializeMeta obj) :=
  ⟨obj, h.parseMeta_serializeMeta hsize, h⟩

theorem TrueLine.ok {line : Bytes} {obj : ObjectInfo} (h : TrueLine H handler content line)
    (hobj : parseMeta line = some obj) : HashListOk H handler content obj := by
  obtain ⟨obj', hobj', hok⟩ := h
  rw [hobj] at hobj'
  cases hobj'
  exact hok

theorem hashList_quiet {s s' : Node} (hs : (hashListInvariant H handler content key).shared s)
    (hquiet : Quiet s s') : (hashListInvariant H handler content key).shared s' :=
  ⟨hquiet.setup.faultless hs.1, fun d hd => hs.2 d (hquiet.copies _ d hd)⟩

theorem hashList_frame {s s' : Node} {f : RequestFrame}
    (hs : (hashListInvariant H handler content key).holds (some f) s)
    (hs' : (hashListInvariant H handler content key).shared s') :
    (hashListInvariant H handler content key).holds (some f) s' :=
  ⟨hs', hs.2⟩

theorem hashList_stores {s s' : Node} {id data : Bytes}
    (hs : (hashListInvariant H handler content key).shared s) (hstores : Stores id data s s')
    (hdata : SameFile (metaKey key) id → TrueLine H handler content data) :
    (hashListInvariant H handler content key).shared s' := by
  refine ⟨hstores.setup.faultless hs.1, ?_⟩
  intro d hd
  rcases hstores.copies _ d hd with ⟨hfile, rfl⟩ | hold
  · exact hdata hfile
  · exact hs.2 d hold

/-- What a hash may be entered into is true if all that is known is. -/
theorem hashList_candidates {s : Node} {obj base : ObjectInfo}
    (hs : (hashListInvariant H handler content key).shared s)
    (hobj : HashListOk H handler content obj) (hbase : base ∈ candidates s key obj) :
    HashListOk H handler content base := by
  unfold candidates at hbase
  cases hmemory : s.cache.memoryCache.dataOf (metaKey key) with
  | some line =>
      obtain ⟨obj', hobj', hok⟩ := hs.2 line (Or.inl hmemory)
      rw [hmemory, Option.elim_some, hobj', Option.getD_some, List.mem_singleton] at hbase
      rwa [hbase]
  | none =>
      rw [hmemory, Option.elim_none, List.mem_cons] at hbase
      rcases hbase with rfl | hdisk
      · exact hobj
      · obtain ⟨line, hline, hparsed⟩ := Option.bind_eq_some_iff.mp (Option.mem_toList.mp hdisk)
        exact (hs.2 line (Or.inr hline)).ok hparsed

section Requests

variable {request : HttpRequest} {info : CacheKeyInfo}

theorem hashList_enters (hsize : content.length < 2 ^ 64)
    (hown : info.fullObjectKey ≠ key → ¬ SameFile (metaKey info.fullObjectKey) (metaKey key))
    {s s' : Node} {obj base : ObjectInfo} {chunkIndex : Nat} {data : Bytes}
    (hs : (hashListInvariant H handler content key).shared s)
    (hobj : info.fullObjectKey = key → HashListOk H handler content obj)
    (hdata : info.fullObjectKey = key → data = chunkOf content handler.chunkSize chunkIndex)
    (hbase : base ∈ candidates s info.fullObjectKey obj)
    (hgap : info.fullObjectKey = key → chunkIndex ≤ base.chunkHashes.length)
    (henters : Enters info base chunkIndex (H.hex data) s s') :
    (hashListInvariant H handler content key).shared s' := by
  refine ⟨henters.setup.faultless hs.1, ?_⟩
  intro d hd
  rcases henters.copies _ d hd with hold | ⟨hfile, rfl⟩
  · exact hs.2 d hold
  · have hkey : info.fullObjectKey = key := by
      by_contra hne
      exact hown hne hfile.symm
    rw [hkey] at hbase
    -- The list that is extended is a true one, and has no gap.
    have hok := (hashList_candidates hs (hobj hkey) hbase).enter (hgap hkey) henters.vacant
    rw [hdata hkey]
    exact hok.trueLine hsize

theorem hashList_allows
    (hp2p : (handler.enableP2pFallback && handler.hasTransferManager) = false)
    (hsize : content.length < 2 ^ 64) (hown : OwnFile key (.request request))
    (hinfo : parseCacheKey request = some info) :
    (hashListInvariant H handler content key).Allows
      ((hashListSpec H handler content key).contract (.request request)) H handler info where
  holds _ _ := Iff.rfl
  spares _ _ _ _ := trivial
  enters _ _ _ _ _ _ := trivial
  faultless s hs := hs.1
  quiet frame s s' hs hquiet := by
    cases frame with
    | none => exact hashList_quiet hs hquiet
    | some f => exact hashList_frame hs (hashList_quiet hs.1 hquiet)
  parsed s line obj hs hcopied hobj hkey := by
    rw [hkey] at hcopied
    exact (hs.2 line hcopied).ok hobj
  described h s head hs hadmits := by
    -- What the HEAD request brings is a list without entries.
    have hhead : info.fullObjectKey = key →
        HashListOk H handler content { size := head.size, etag := head.etag } := by
      intro hkey
      rw [← fullObjectKey_of_parseCacheKey hinfo] at hkey
      obtain ⟨hheadSize, hetag⟩ := hadmits head hkey rfl
      exact ⟨hheadSize, hetag, by simp⟩
    exact ⟨hhead, fun hkey => (hhead hkey).trueLine hsize⟩
  lines h s hs := sat_downloadFromPeers_disabled hp2p ⟨rfl, hs, nofun⟩
  storesLine h s s' line hs _ hline hstores := by
    apply hashList_stores hs hstores
    exact fun hfile => hline (hown.key_eq hinfo hfile)
  cached _ _ _ _ _ _ := trivial
  chunks f h s _ hs := sat_downloadFromPeers_disabled hp2p ⟨rfl, hs, nofun⟩
  served f h s data hf hs hadmits := by
    refine ⟨fun hkey => ?_, trivial⟩
    have hkey' : f.info.bucket ++ ascii "/" ++ f.info.objectKey = key := by
      rw [hf, fullObjectKey_of_parseCacheKey hinfo, ← hf, hkey]
    rw [hadmits data hkey' rfl]
    exact segment_wantedSize (hs.2.1 hkey).size f.chunkIndex
  storesChunk f h s s' chunk _ _ hs _ hstores := by
    apply hashList_frame hs
    apply hashList_stores hs.1 hstores
    exact fun hfile => absurd hfile (not_sameFile_meta_chunk handler f.info f.chunkIndex key)
  records f h s s' data base hf _ horigin hs hadmits hbase henters := by
    apply hashList_frame hs
    rw [hf] at hbase henters horigin
    apply hashList_enters hsize (hown info hinfo) hs.1 (hf ▸ hs.2.1) horigin hbase ?_ henters
    exact fun hkey => hadmits (by rw [hf, hkey]) base (hf ▸ hbase)

end Requests

/-! ## Every run -/

theorem hashListSpec_valid
    (hp2p : (handler.enableP2pFallback && handler.hasTransferManager) = false)
    (hsize : content.length < 2 ^ 64) :
    (hashListSpec H handler content key).Valid (nodeProgram H fuel handler) where
  entry job s hown hs := by
    cases job with
    | request request =>
        exact RequestInvariant.sat_entry_request
          (fun info hinfo => hashList_allows hp2p hsize hown hinfo) hs fun _ _ _ _ hpost => hpost.1
    | _ => exact hown.elim
  changes_refl _ _ := trivial
  changes_trans _ _ _ _ _ _ := trivial
  shared_of_holds _ _ hs := RequestInvariant.shared_of_holds hs
  shared_of_post _ _ _ _ _ hpost := hpost
  joined_of_post _ _ _ _ _ _ := trivial

def HashListTrue (H : Sha256) (handler : RequestHandler) (content key : Bytes)
    (cache : ChunkManager) : Prop :=
  ∀ fuel chunk cache' obj i hash,
    cache.getChunk fuel (metaKey key) = some (some chunk, cache') →
      parseMeta chunk.data = some obj → obj.chunkHashes[i]? = some hash → hash ≠ [] →
        hash = H.hex (chunkOf content handler.chunkSize i)

theorem stepMeets_hashList {sys : System nodeSignature} {action : Action nodeSignature} {s' : Node}
    (h : (OriginKeeps content key action ∧ OnlyRequests key action) ∧ NoGap key sys action) :
    StepMeets (hashListSpec H handler content key) (nodeProgram H fuel handler) sys action s' where
  start job hstart := by
    subst hstart
    exact h.1.2
  admits id reply task w next hresume htask hrest _ r hr := by
    subst hresume
    obtain ⟨⟨⟨hserves, hdescribes⟩, -⟩, hgap⟩ := h
    cases w with
    | spawn job => trivial
    | join id job => trivial
    | external e =>
        cases hr
        cases e with
        | headObject bucket objectKey =>
            exact fun head hkey hhead => hdescribes bucket objectKey head hkey hhead
        | getObject bucket objectKey offset length =>
            exact fun data hkey hdata => hserves bucket objectKey offset length data hkey hdata
        | lock access => exact hgap.holds htask hrest
        | _ => trivial
  stable id reply resumed h other task _ _ _ _ _ _ _ hholds hblank := by
    cases hframe : task.frame with
    | none => exact hblank
    | some f =>
        rw [hframe] at hholds
        exact hashList_frame hholds hblank

/-- In every run of requests in which the origin keeps the object and every hash
that is recorded is at most the next one of its list, a list that is true in the
beginning stays true. -/
theorem hashListTrue_of_run
    (hp2p : (handler.enableP2pFallback && handler.hasTransferManager) = false)
    (hsize : content.length < 2 ^ 64) {node : Node} (hfaultless : node.cache.fileSystem.Faultless)
    (htrue : ∀ d, Copy node.cache (metaKey key) d → TrueLine H handler content d)
    {actions : List (Action nodeSignature)} {sys : System nodeSignature}
    (hactions : ∀ action ∈ actions, OriginKeeps content key action ∧ OnlyRequests key action)
    (hgap : EveryStep (nodeProgram H fuel handler).step (NoGap key) (.initial node) actions)
    (hrun : runSteps (nodeProgram H fuel handler).step (.initial node) actions = some sys) :
    HashListTrue H handler content key sys.shared.cache := by
  have hinitial : (System.initial (S := nodeSignature) node).Sound
      (hashListSpec H handler content key) (nodeProgram H fuel handler) :=
    System.Sound.initial ⟨hfaultless, htrue⟩
  have hsound := runSteps_invariant
    (fun s action s' hs hstep hnext =>
      (hs.step (hashListSpec_valid hp2p hsize) hnext (stepMeets_hashList hstep)).1)
    hinitial ((EveryStep.of_forall hactions).and hgap) hrun
  intro fuel' chunk cache' obj i hash hget hparsed hentry _
  have hok := (hsound.shared.2 chunk.data ((getChunk_spec hget).1 chunk rfl)).ok hparsed
  exact hok.hashes i hash hentry

end HashList

/-! ## Two runs -/

def originOf (size : Nat) (etag : Bytes) (offset : Nat) (chunk : Bytes) :
    (e : External) → e.Answer :=
  P2P.answers [] (some ⟨size, etag⟩) fun start length =>
    if start = offset ∧ length = chunk.length then some chunk else none

theorem originKeeps_originOf {content etag chunk : Bytes} {offset : Nat} (key : Bytes) (id : Nat)
    (hchunk : chunk = segment content offset (offset + chunk.length)) (hetag : IsWord etag) :
    OriginKeeps content key (.resume id (originOf content.length etag offset chunk)) := by
  refine ⟨?_, ?_⟩
  · intro bucket objectKey start length data _ hdata
    have hif : (if start = offset ∧ length = chunk.length then some chunk else none : Option Bytes)
        = some data := hdata
    split at hif
    · rename_i hasked
      cases hif
      rw [hasked.1, hasked.2]
      exact hchunk
    · cases hif
  · intro bucket objectKey head _ hhead
    cases hhead
    exact ⟨rfl, hetag⟩

def noPeers : RequestHandler := { enableP2pFallback := false }

def wholeRequest : HttpRequest := { method := ascii "GET", path := ascii "/b/k" }

def requestRun (rounds : Nat) (request : HttpRequest) (reply : (e : External) → e.Answer) :
    List (Action nodeSignature) :=
  .start (.request request) :: List.replicate rounds (.resume 0 reply)

def sampleGet : HttpRequest → ((e : External) → e.Answer) → List (Action nodeSignature) :=
  requestRun 11

def readBack (sys : System nodeSignature) (key : Bytes) : Option (List Bytes) :=
  (sys.shared.cache.getChunk 0 (metaKey key)).bind fun found =>
    (found.1.bind fun chunk => parseMeta chunk.data).map ObjectInfo.chunkHashes

theorem actionsMeet_requestRun {etag chunk : Bytes} {offset : Nat} (rounds : Nat)
    (content : Bytes) (request : HttpRequest)
    (hrequest : ∀ info ∈ parseCacheKey request, info.fullObjectKey = ascii "b/k")
    (hchunk : chunk = segment content offset (offset + chunk.length)) (hetag : IsWord etag) :
    ∀ action ∈ requestRun rounds request (originOf content.length etag offset chunk),
      OriginKeeps content (ascii "b/k") action ∧ OnlyRequests (ascii "b/k") action := by
  have hstart : OwnFile (ascii "b/k") (.request request) := by
    intro info hinfo hne
    exact absurd (hrequest info hinfo) hne
  intro action haction
  rcases List.mem_cons.mp haction with rfl | hresume
  · exact ⟨trivial, hstart⟩
  · rw [List.eq_of_mem_replicate hresume]
    exact ⟨originKeeps_originOf (ascii "b/k") 0 hchunk hetag, trivial⟩

theorem not_copy_sampleNode (id d : Bytes) : ¬ Copy P2P.sampleNode.cache id d := by
  have hmemory : P2P.sampleNode.cache.memoryCache.dataOf id = none := rfl
  have hdisk : P2P.sampleNode.cache.loadFromDisk id = none := rfl
  simp [Copy, hmemory, hdisk]

def tailRequest : HttpRequest :=
  { wholeRequest with
    headers := (∅ : Headers).insert (ascii "Range") (ascii "bytes=16777216-") }

def tailObject (chunkSize : Nat) : Bytes := List.replicate chunkSize 0 ++ [1]

theorem segment_tailObject (n : Nat) : [1] = segment (tailObject n) n (n + 1) := by
  simp [segment, tailObject, List.take_append]

theorem length_tailObject (n : Nat) : (tailObject n).length = n + 1 := by
  simp [tailObject]

theorem chunkOf_tailObject (n : Nat) : chunkOf (tailObject n) n 0 = List.replicate n 0 := by
  simp [chunkOf, segment, tailObject]

theorem hex_zeros (n : Nat) :
    sampleSha256.hex (List.replicate (n + 1) 0) = sampleSha256.hex [0] := by
  have hzeros : sampleSha256.digest (List.replicate (n + 1) 0) = List.replicate 32 0 := by
    rw [List.replicate_succ]
    rfl
  rw [Sha256.hex, hzeros]
  rfl

def tailInfo : ObjectInfo where
  size := 2 ^ 24 + 1
  etag := ascii "e"
  chunkHashes := [sampleSha256.hex [0]]

theorem hashListOk_tailInfo : HashListOk sampleSha256 noPeers (tailObject (2 ^ 24)) tailInfo where
  size := (length_tailObject (2 ^ 24)).symm
  etag := by decide
  hashes i hash hi := by
    obtain ⟨hlt, rfl⟩ := List.getElem?_eq_some_iff.mp hi
    obtain rfl : i = 0 := Nat.lt_one_iff.mp hlt
    have hsize : noPeers.chunkSize = 2 ^ 24 := rfl
    rw [hsize, chunkOf_tailObject]
    exact (hex_zeros (2 ^ 24 - 1)).symm

def tailNode : Node :=
  { P2P.sampleNode with
    cache := (P2P.sampleNode.cache.storeChunk sampleSha256 0 (metaKey (ascii "b/k"))
      (serializeMeta tailInfo)).elim P2P.sampleNode.cache Prod.snd }

theorem tailNode_spec : tailNode.cache.fileSystem.Faultless ∧
    ∀ d, Copy tailNode.cache (metaKey (ascii "b/k")) d → d = serializeMeta tailInfo := by
  have hsome : (P2P.sampleNode.cache.storeChunk sampleSha256 0 (metaKey (ascii "b/k"))
      (serializeMeta tailInfo)).isSome = true := by
    decide +kernel
  obtain ⟨⟨ok, cache⟩, hstore⟩ := Option.isSome_iff_exists.mp hsome
  obtain ⟨hsetup, hcopies, -⟩ := storeChunk_spec FileSystem.faultless_empty hstore
  have hcache : tailNode.cache = cache := by
    rw [tailNode, hstore]
    rfl
  rw [hcache]
  refine ⟨hsetup.faultless FileSystem.faultless_empty, fun d hd => ?_⟩
  rcases hcopies _ d hd with ⟨-, heq⟩ | hold
  · exact heq
  · exact absurd hold (not_copy_sampleNode _ d)

/-- With the hash of chunk 0 in its place, the hash of chunk 1 goes to the next one. -/
theorem hashListTrue_of_run_tail :
    ∃ sys, runSteps (nodeProgram sampleSha256 0 noPeers).step (.initial tailNode)
        (requestRun 8 tailRequest (originOf (2 ^ 24 + 1) (ascii "e") (2 ^ 24) [1])) = some sys ∧
      readBack sys (ascii "b/k") = some [sampleSha256.hex [0], sampleSha256.hex [1]] ∧
      HashListTrue sampleSha256 noPeers (tailObject (2 ^ 24)) (ascii "b/k") sys.shared.cache := by
  have hread : ((runSteps (nodeProgram sampleSha256 0 noPeers).step (.initial tailNode)
      (requestRun 8 tailRequest (originOf (2 ^ 24 + 1) (ascii "e") (2 ^ 24) [1]))).any fun sys =>
        decide (readBack sys (ascii "b/k") =
          some [sampleSha256.hex [0], sampleSha256.hex [1]])) = true := by
    decide +kernel
  obtain ⟨sys, hrun, hsys⟩ := (Option.any_eq_true _ _).mp hread
  have hsize : (tailObject (2 ^ 24)).length < 2 ^ 64 := by
    rw [length_tailObject]
    decide
  refine ⟨sys, hrun, of_decide_eq_true hsys, hashListTrue_of_run rfl hsize tailNode_spec.1
    (fun d hd => ?_) ?_ (by decide +kernel) hrun⟩
  · rw [tailNode_spec.2 d hd]
    exact hashListOk_tailInfo.trueLine hsize
  · have hmeets := actionsMeet_requestRun 8 _ tailRequest (by decide) (segment_tailObject (2 ^ 24))
      (show IsWord (ascii "e") by decide)
    rw [length_tailObject] at hmeets
    exact hmeets

/-- The first GET asks for chunk 1 only: its hash is then read back as the hash
of chunk 0. -/
theorem not_hashListTrue_tail :
    (∀ action ∈ sampleGet tailRequest (originOf (2 ^ 24 + 1) (ascii "e") (2 ^ 24) [1]),
      OriginKeeps (tailObject (2 ^ 24)) (ascii "b/k") action ∧ OnlyRequests (ascii "b/k") action) ∧
    ∃ sys, runSteps (nodeProgram sampleSha256 0 noPeers).step (.initial P2P.sampleNode)
        (sampleGet tailRequest (originOf (2 ^ 24 + 1) (ascii "e") (2 ^ 24) [1])) = some sys ∧
      ¬ HashListTrue sampleSha256 noPeers (tailObject (2 ^ 24)) (ascii "b/k") sys.shared.cache := by
  constructor
  · have hmeets := actionsMeet_requestRun 11 _ tailRequest (by decide)
      (segment_tailObject (2 ^ 24)) (show IsWord (ascii "e") by decide)
    rw [length_tailObject] at hmeets
    exact hmeets
  · have hread : ((runSteps (nodeProgram sampleSha256 0 noPeers).step (.initial P2P.sampleNode)
        (sampleGet tailRequest (originOf (2 ^ 24 + 1) (ascii "e") (2 ^ 24) [1]))).any fun sys =>
          decide (readBack sys (ascii "b/k") = some [sampleSha256.hex [1]])) = true := by
      decide +kernel
    obtain ⟨sys, hrun, hsys⟩ := (Option.any_eq_true _ _).mp hread
    refine ⟨sys, hrun, ?_⟩
    intro htrue
    have hback := of_decide_eq_true hsys
    simp only [readBack, Option.bind_eq_some_iff, Option.map_eq_some_iff] at hback
    obtain ⟨⟨found, cache⟩, hget, obj, ⟨chunk, hfound, hparsed⟩, hhashes⟩ := hback
    simp only at hfound
    rw [hfound] at hget
    have hfirst := htrue 0 chunk cache obj 0 (sampleSha256.hex [1]) hget hparsed
      (by rw [hhashes]; rfl) (Sha256.hex_ne_nil _ _)
    have hsize : noPeers.chunkSize = 2 ^ 24 := rfl
    rw [hsize, chunkOf_tailObject] at hfirst
    have hother : sampleSha256.hex [1] ≠ sampleSha256.hex [0] := by decide
    exact hother (hfirst.trans (hex_zeros (2 ^ 24 - 1)))

end ElioP2P.Proxy
