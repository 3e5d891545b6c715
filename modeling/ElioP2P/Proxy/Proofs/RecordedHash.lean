import ElioP2P.Proxy.Proofs.ChunkServer
import ElioP2P.Proxy.Proofs.HashList

/-!
# Responses after a hash has been recorded

Once the hash of a chunk has been recorded, the chunk enters the cache from the
origin, from peers that are checked against the hash, and from uploads that are
checked against nothing but themselves.  This module says what has to be kept
out of a run so that every later response is made from data with the recorded
hash, and shows that a single upload is enough to break it.
-/

namespace ElioP2P.Proxy

open ElioP2P.Library ElioP2P.Library.Coroutine ElioP2P.Cache ElioP2P.Cache.ChunkManager
open ElioP2P.P2P

/-! ## What is kept -/

def chunkIdAt (handler : RequestHandler) (key : Bytes) (index : Nat) : Bytes :=
  computeChunkId key (index * handler.chunkSize) handler.chunkSize

def Recorded (key : Bytes) (index : Nat) (s : Node) : Prop :=
  ∃ a ∈ s.anchors, a.fullObjectKey = key ∧ a.chunkIndex = index

instance (key : Bytes) (index : Nat) (s : Node) : Decidable (Recorded key index s) :=
  inferInstanceAs (Decidable (∃ a ∈ s.anchors, _))

section RecordedHash

variable {H : Sha256} {fuel : Nat} {handler : RequestHandler} {content key : Bytes} {index : Nat}

def originHash (H : Sha256) (handler : RequestHandler) (content : Bytes) (index : Nat) : Bytes :=
  H.hex (chunkOf content handler.chunkSize index)

def Right (H : Sha256) (handler : RequestHandler) (content : Bytes) (index : Nat) (data : Bytes) :
    Prop :=
  H.hex data = originHash H handler content index

instance (data : Bytes) : Decidable (Right H handler content index data) :=
  inferInstanceAs (Decidable (_ = _))

/-- From the recording on, every copy in the cache and every chunk that a
request holds is right. -/
def genuineInvariant (H : Sha256) (handler : RequestHandler) (content key : Bytes) (index : Nat) :
    RequestInvariant where
  shared s := s.cache.fileSystem.Faultless ∧
    (∀ a ∈ s.anchors, a.fullObjectKey = key → a.chunkIndex = index →
      a.hash = originHash H handler content index) ∧
    (Recorded key index s → ∀ d, Copy s.cache (chunkIdAt handler key index) d →
      Right H handler content index d)
  object _ _ := True
  chunk s info c := Recorded key index s → info.fullObjectKey = key → c.index = index →
    Right H handler content index c.data
  line _ _ := True
  origin info chunkIndex data := info.fullObjectKey = key → chunkIndex = index →
    Right H handler content index data

/-! ## What the steps of a run have to meet -/

def AtChunk (key : Bytes) (index : Nat) (f : RequestFrame) : Prop :=
  f.info.fullObjectKey = key ∧ f.chunkIndex = index

def Clashes (handler : RequestHandler) (key : Bytes) (index : Nat) (f : RequestFrame) : Prop :=
  f.info.fullObjectKey ≠ key ∧
    SameFile (chunkIdOf handler f.info f.chunkIndex) (chunkIdAt handler key index)

instance (f : RequestFrame) : Decidable (AtChunk key index f) :=
  inferInstanceAs (Decidable (_ ∧ _))

instance (f : RequestFrame) : Decidable (Clashes handler key index f) :=
  inferInstanceAs (Decidable (_ ∧ _))

def PeerSafe (H : Sha256) (handler : RequestHandler) (content key : Bytes) (index : Nat)
    (f : RequestFrame) : Prop :=
  AtChunk key index f → f.obj.chunkHashes.getD index [] = originHash H handler content index

def AsksWhole (handler : RequestHandler) (content key : Bytes) (index : Nat) (f : RequestFrame) :
    Prop :=
  AtChunk key index f →
    wantedSize handler f.obj index = wantedSize handler { size := content.length } index

/-- If the bytes are a complete Upload into the chunk's file, it carries right data. -/
def UploadSafe (H : Sha256) (handler : RequestHandler) (content key : Bytes) (index : Nat)
    (bytes : Bytes) : Prop :=
  ∀ upload ∈ uploadOf H bytes, SameFile upload.1 (chunkIdAt handler key index) →
    Right H handler content index upload.2

def FrameSafe (H : Sha256) (handler : RequestHandler) (content key : Bytes) (index : Nat)
    (f : RequestFrame) : Prop :=
  ∀ chunk ∈ f.chunks, f.info.fullObjectKey = key → chunk.index = index →
    Right H handler content index chunk.data

instance (f : RequestFrame) : Decidable (PeerSafe H handler content key index f) :=
  inferInstanceAs (Decidable (_ → _))

instance (f : RequestFrame) : Decidable (AsksWhole handler content key index f) :=
  inferInstanceAs (Decidable (_ → _))

instance (bytes : Bytes) : Decidable (UploadSafe H handler content key index bytes) :=
  inferInstanceAs (Decidable (∀ upload ∈ uploadOf H bytes, _))

instance (f : RequestFrame) : Decidable (FrameSafe H handler content key index f) :=
  inferInstanceAs (Decidable (∀ chunk ∈ f.chunks, _))

def waitsForStorage (task : Task nodeSignature) : Bool :=
  match task.rest with
  | .await (.external (.getObject _ _ _ _)) _ => true
  | _ => false

def waitsForPeer (task : Task nodeSignature) : Bool :=
  match task.rest with
  | .await (.external (.headObject _ _)) _ | .await (.external (.getObject _ _ _ _)) _
  | .await (.external (.lock _)) _ => false
  | .await _ _ => true
  | _ => false

/-- A store once the hash has been recorded: what a peer has uploaded is right, and no
request stores a chunk of another object in the chunk's file. -/
def StoreSafe (H : Sha256) (handler : RequestHandler) (content key : Bytes) (index : Nat)
    (task : Task nodeSignature) : Access → Prop
  | .store _ _ => (∀ f ∈ (task.frame : Option RequestFrame), ¬ Clashes handler key index f) ∧
      (task.job = .chunkConnection →
        UploadSafe H handler content key index (received (exchangesOf task.history)))
  | .load _ | .record _ _ _ _ | .announce _ => True

instance (task : Task nodeSignature) :
    ∀ access, Decidable (StoreSafe H handler content key index task access)
  | .store _ _ => inferInstanceAs (Decidable (_ ∧ _))
  | .load _ | .record _ _ _ _ | .announce _ => inferInstanceAs (Decidable True)

def copiesOf (cache : ChunkManager) (id : Bytes) : List Bytes :=
  (cache.memoryCache.dataOf id).toList ++ (cache.loadFromDisk id).toList

theorem mem_copiesOf {cache : ChunkManager} {id d : Bytes} :
    d ∈ copiesOf cache id ↔ Copy cache id d := by
  rw [copiesOf, List.mem_append, Option.mem_toList, Option.mem_toList]
  rfl

def RecordsAt (key : Bytes) (index : Nat) : Access → Prop
  | .record fullObjectKey _ chunkIndex _ => fullObjectKey = key ∧ chunkIndex = index
  | .load _ | .store _ _ | .announce _ => False

instance : ∀ access, Decidable (RecordsAt key index access)
  | .record _ _ _ _ => inferInstanceAs (Decidable (_ ∧ _))
  | .load _ | .store _ _ | .announce _ => inferInstanceAs (Decidable False)

/-- When the hash is recorded, all copies in the cache are right, and so is what the
other requests hold. -/
def RecordSafe (H : Sha256) (handler : RequestHandler) (content key : Bytes) (index : Nat)
    (sys : System nodeSignature) (id : Nat) : Prop :=
  (∀ d ∈ copiesOf sys.shared.cache (chunkIdAt handler key index),
    Right H handler content index d) ∧
  ∀ other ∈ sys.tasks.eraseIdx id, other.result? = none →
    ∀ f ∈ (other.frame : Option RequestFrame), FrameSafe H handler content key index f

instance (sys : System nodeSignature) (id : Nat) :
    Decidable (RecordSafe H handler content key index sys id) :=
  inferInstanceAs (Decidable (_ ∧ _))

/-- The condition on one step: whoever goes on, is safe to go on. -/
def Guarded (H : Sha256) (handler : RequestHandler) (content key : Bytes) (index : Nat)
    (sys : System nodeSignature) : Action nodeSignature → Prop
  | .start _ => True
  | .resume id _ => ∀ task ∈ sys.tasks[id]?,
      (waitsForStorage task = true → ∀ f ∈ (task.frame : Option RequestFrame),
        AsksWhole handler content key index f) ∧
      (waitsForPeer task = true → Recorded key index sys.shared →
        ∀ f ∈ (task.frame : Option RequestFrame), PeerSafe H handler content key index f) ∧
      ∀ access ∈ accessOf task,
        (Recorded key index sys.shared → StoreSafe H handler content key index task access) ∧
        (RecordsAt key index access → ¬ Recorded key index sys.shared →
          RecordSafe H handler content key index sys id)

instance (sys : System nodeSignature) :
    ∀ action, Decidable (Guarded H handler content key index sys action)
  | .start _ => inferInstanceAs (Decidable True)
  | .resume id _ => inferInstanceAs (Decidable (∀ task ∈ sys.tasks[id]?, _ ∧ _ ∧
      ∀ access ∈ accessOf task, _))

def OriginServes (content key : Bytes) : Action nodeSignature → Prop
  | .start _ => True
  | .resume _ reply => Serves content key reply

/-! ## The contract -/

def Knows (H : Sha256) (handler : RequestHandler) (content key : Bytes) (index : Nat)
    (_ : List (Event nodeSignature)) (frame : Option RequestFrame) (s : Node) : Prop :=
  Recorded key index s → ∀ f, frame = some f → PeerSafe H handler content key index f

def KnowsTurn (H : Sha256) (handler : RequestHandler) (content key : Bytes) (index : Nat)
    (job : Job) (h : List (Event nodeSignature)) (frame : Option RequestFrame) (s : Node) :
    Access → Prop
  | .store _ _ => Recorded key index s → (∀ f, frame = some f → ¬ Clashes handler key index f) ∧
      (job = .chunkConnection → UploadSafe H handler content key index (received (exchangesOf h)))
  | .record fullObjectKey _ chunkIndex _ => fullObjectKey = key → chunkIndex = index →
      ¬ Recorded key index s → ∀ d, Copy s.cache (chunkIdAt handler key index) d →
        Right H handler content index d
  | .load _ | .announce _ => True

def RecordsInTurn (key : Bytes) (index : Nat) (h : List (Event nodeSignature)) (s s' : Node) :
    Prop :=
  s.anchors ⊆ s'.anchors ∧ (¬ Recorded key index s → Recorded key index s' →
    ∃ access, h.getLast? = some (turn access) ∧ RecordsAt key index access)

def genuineSpec (H : Sha256) (handler : RequestHandler) (content key : Bytes) (index : Nat) :
    Spec nodeSignature where
  holds := (genuineInvariant H handler content key index).holds
  admits job h frame s w reply :=
    match w, reply with
    | .external (.headObject _ _), _ => True
    | .external (.getObject bucket objectKey offset length), answer =>
        ∀ data, (answer : Option Bytes) = some data →
          (bucket ++ ascii "/" ++ objectKey = key →
            data = segment content offset (offset + length)) ∧
          ∀ f : RequestFrame, frame = some f → AsksWhole handler content key index f
    | .external (.lock access), _ => KnowsTurn H handler content key index job h frame s access
    | .join _ joined, finished =>
        Knows H handler content key index h frame s ∧ DownloadJoined H joined finished
    | _, _ => Knows H handler content key index h frame s
  changes := RecordsInTurn key index
  allowed _ := True
  post job h _ result s :=
    (genuineInvariant H handler content key index).shared s ∧
      DownloadJoined H job ⟨exchangesOf h, result⟩ ∧
      ∀ request handled, job = .request request → result = .response handled →
        (genuineInvariant H handler content key index).RequestPost request handled s
  joined := DownloadJoined H

theorem recorded_congr {s s' : Node} (h : s'.anchors = s.anchors) :
    Recorded key index s' ↔ Recorded key index s := by
  rw [Recorded, Recorded, h]

namespace RecordsInTurn

variable {h : List (Event nodeSignature)} {s t u : Node}

theorem of_anchors (hanchors : t.anchors = s.anchors) : RecordsInTurn key index h s t := by
  refine ⟨by rw [hanchors]; exact List.Subset.refl _, fun hbefore hnow => ?_⟩
  exact absurd ((recorded_congr hanchors).mp hnow) hbefore

theorem trans (hst : RecordsInTurn key index h s t) (htu : RecordsInTurn key index h t u) :
    RecordsInTurn key index h s u := by
  refine ⟨List.Subset.trans hst.1 htu.1, fun hbefore hnow => ?_⟩
  by_cases hmid : Recorded key index t
  · exact hst.2 hbefore hmid
  · exact htu.2 hmid hnow

theorem of_enters {fullObjectKey hash : Bytes} {obj : ObjectInfo} {chunkIndex : Nat}
    (hanchors : t.anchors = s.anchors ++ [⟨fullObjectKey, chunkIndex, hash⟩]) :
    RecordsInTurn key index (h ++ [turn (.record fullObjectKey obj chunkIndex hash)]) s t := by
  rw [RecordsInTurn, hanchors]
  refine ⟨List.subset_append_left _ _, ?_⟩
  rintro hbefore ⟨a, ha, hkey, hindex⟩
  refine ⟨.record fullObjectKey obj chunkIndex hash, by simp, ?_⟩
  rw [hanchors, List.mem_append, List.mem_singleton] at ha
  rcases ha with hold | rfl
  · exact absurd ⟨a, hold, hkey, hindex⟩ hbefore
  · exact ⟨hkey, hindex⟩

end RecordsInTurn

/-- Whoever records the chunk's first hash was waiting for its turn to do so. -/
theorem records_of_wakes {task : Task nodeSignature} {h : List (Event nodeSignature)} {s s' : Node}
    (hwakes : task.Wakes h) (hchanges : RecordsInTurn key index h s s')
    (hbefore : ¬ Recorded key index s) (hnow : Recorded key index s') :
    ∃ access ∈ accessOf task, RecordsAt key index access := by
  obtain ⟨access, hlast, hrecords⟩ := hchanges.2 hbefore hnow
  refine ⟨access, ?_, hrecords⟩
  rcases hwakes with ⟨w, next, r, hrest, rfl⟩ | ⟨-, rfl⟩
  · rw [List.getLast?_concat, Option.some.injEq] at hlast
    cases w with
    | spawn job => cases hlast
    | join id job => cases hlast
    | external e =>
        cases hlast
        rw [accessOf, hrest, Option.mem_def]
  · cases hlast

theorem genuine_transfer (job : Job) :
    TransferContract H ((genuineSpec H handler content key index).contract job)
      (Knows H handler content key index) where
  holds frame s transfer discovery hs := by
    cases frame with
    | none => exact hs
    | some f => exact hs
  changes h s transfer discovery := RecordsInTurn.of_anchors rfl
  knows h frame s transfer discovery hK := hK
  rely h frame s w reply hw hadmits := by
    cases w with
    | spawn job => exact hadmits
    | join id job => exact hadmits.1
    | external e =>
        cases e with
        | headObject bucket objectKey => exact hw.elim
        | getObject bucket objectKey offset length => exact hw.elim
        | lock access => exact hw.elim
        | _ => exact hadmits
  allowed ctx peer expectedSha256 := trivial
  joined h frame s id ctx peer expectedSha256 finished hadmits := hadmits.2
  throws h frame s hs :=
    ⟨RequestInvariant.shared_of_holds hs, downloadJoined_thrown job _, nofun⟩

/-! ## Sections -/

/-- While nothing is recorded it is enough to look at the copies. -/
theorem genuine_of_copies {s s' : Node}
    (hs : (genuineInvariant H handler content key index).shared s)
    (hfaultless : s'.cache.fileSystem.Faultless) (hanchors : s'.anchors = s.anchors)
    (hcopies : Recorded key index s → ∀ d, Copy s'.cache (chunkIdAt handler key index) d →
      Right H handler content index d) :
    (genuineInvariant H handler content key index).shared s' := by
  refine ⟨hfaultless, ?_, ?_⟩
  · rw [hanchors]
    exact hs.2.1
  · intro hrecorded
    rw [recorded_congr hanchors] at hrecorded
    exact hcopies hrecorded

theorem genuine_stores {s s' : Node} {id data : Bytes}
    (hs : (genuineInvariant H handler content key index).shared s) (hstores : Stores id data s s')
    (hdata : Recorded key index s → SameFile (chunkIdAt handler key index) id →
      Right H handler content index data) :
    (genuineInvariant H handler content key index).shared s' := by
  apply genuine_of_copies hs (hstores.setup.faultless hs.1) hstores.anchors
  intro hrecorded d hd
  rcases hstores.copies _ d hd with ⟨hfile, rfl⟩ | hold
  · exact hdata hrecorded hfile
  · exact hs.2.2 hrecorded d hold

theorem genuine_quiet {s s' : Node} (hs : (genuineInvariant H handler content key index).shared s)
    (hquiet : Quiet s s') : (genuineInvariant H handler content key index).shared s' := by
  apply genuine_of_copies hs (hquiet.setup.faultless hs.1) hquiet.anchors
  intro hrecorded d hd
  exact hs.2.2 hrecorded d (hquiet.copies _ d hd)

theorem genuine_chunk {s s' : Node} {info : CacheKeyInfo} {chunk : FetchedChunk}
    (hanchors : s'.anchors = s.anchors)
    (hchunk : (genuineInvariant H handler content key index).chunk s info chunk) :
    (genuineInvariant H handler content key index).chunk s' info chunk := by
  intro hrecorded
  rw [recorded_congr hanchors] at hrecorded
  exact hchunk hrecorded

theorem genuine_frame {s s' : Node} {f : RequestFrame} (hanchors : s'.anchors = s.anchors)
    (hs : (genuineInvariant H handler content key index).holds (some f) s)
    (hs' : (genuineInvariant H handler content key index).shared s') :
    (genuineInvariant H handler content key index).holds (some f) s' :=
  ⟨hs', trivial,
    fun chunk hchunk => ⟨(hs.2.2.1 chunk hchunk).1,
      genuine_chunk hanchors (hs.2.2.1 chunk hchunk).2⟩,
    fun chunk hchunk => ⟨(hs.2.2.2 chunk hchunk).1,
      genuine_chunk hanchors (hs.2.2.2 chunk hchunk).2⟩⟩

theorem chunkIdOf_of_atChunk {f : RequestFrame} (hat : AtChunk key index f) :
    chunkIdOf handler f.info f.chunkIndex = chunkIdAt handler key index := by
  rw [chunkIdOf, chunkIdAt, hat.1, hat.2]

theorem atChunk_of_sameFile (hsize : 0 < handler.chunkSize) {f : RequestFrame}
    (hclash : ¬ Clashes handler key index f)
    (hfile : SameFile (chunkIdAt handler key index) (chunkIdOf handler f.info f.chunkIndex)) :
    AtChunk key index f := by
  have hkey : f.info.fullObjectKey = key := by
    by_contra hne
    exact hclash ⟨hne, hfile.symm⟩
  refine ⟨hkey, ?_⟩
  have hsame : SameFile (chunkIdOf handler f.info f.chunkIndex)
      (chunkIdOf handler { f.info with fullObjectKey := key } index) := hfile.symm
  exact sameFile_chunkIdOf hsize hkey hsame

theorem sat_downloadFromPeers {C : Contract nodeSignature}
    {K : List (Event nodeSignature) → nodeSignature.Frame → Node → Prop}
    {frame : nodeSignature.Frame} {h : List (Event nodeSignature)} {s : Node}
    (hC : TransferContract H C K) {request : TransferRequest} (hs : C.holds frame s)
    {post : List (Event nodeSignature) → nodeSignature.Frame → Option Bytes → Node → Prop}
    (hnone : ∀ h' s', C.holds frame s' → post h' frame none s')
    (hsome : ∀ h' s' data, C.holds frame s' → K h' frame s' →
      (request.expectedSha256 ≠ [] → H.hex data = request.expectedSha256) →
        post h' frame (some data) s') :
    (downloadFromPeers H handler request).Sat C post h frame s := by
  unfold downloadFromPeers
  split
  · apply Sat.bind
    apply ((guarantees_downloadChunk hC request).sat hs).mono
    rintro h' frame' result s' ⟨rfl, new, rfl, hs', hK, hresult⟩
    change post (h ++ new) frame' (result.filter fun data => !data.isEmpty) s'
    cases hfilter : result.filter fun data => !data.isEmpty with
    | none => exact hnone _ s' hs'
    | some data =>
        obtain ⟨peers, -, hcame⟩ := hresult data (Option.filter_eq_some_iff.mp hfilter).1
        exact hsome _ s' data hs' (hK hcame.ne_nil) hcame.hex
  · exact hnone h s hs

/-! ## Requests -/

section Requests

variable {request : HttpRequest} {info : CacheKeyInfo} {h : List (Event nodeSignature)} {s : Node}

/-- A `#meta` chunk is never stored in the chunk's file. -/
theorem genuine_storesMeta {s s' : Node} {data : Bytes} (info : CacheKeyInfo)
    (hs : (genuineInvariant H handler content key index).shared s)
    (hstores : Stores (metaKey info.fullObjectKey) data s s') :
    (genuineInvariant H handler content key index).shared s' := by
  apply genuine_stores hs hstores
  intro _ hfile
  exact absurd hfile.symm
    (not_sameFile_meta_chunk handler { info with fullObjectKey := key } index info.fullObjectKey)

/-- What a request stores at the chunk is what it holds. -/
theorem genuine_storesChunk (hsize : 0 < handler.chunkSize) {f : RequestFrame}
    {chunk : FetchedChunk} {s' : Node} (hheld : f.held = some chunk)
    (hs : (genuineInvariant H handler content key index).holds (some f) s)
    (hclash : Recorded key index s → ¬ Clashes handler key index f)
    (hstores : Stores (chunkIdOf handler f.info f.chunkIndex) chunk.data s s') :
    (genuineInvariant H handler content key index).holds (some f) s' := by
  apply genuine_frame hstores.anchors hs
  apply genuine_stores hs.1 hstores
  intro hrecorded hfile
  have hat := atChunk_of_sameFile hsize (hclash hrecorded) hfile
  obtain ⟨hindex, hright⟩ := hs.2.2.2 chunk hheld
  exact hright hrecorded hat.1 (hindex.trans hat.2)

/-- The hash of a chunk from the origin is the one that is recorded, and by then
nothing else is left of the chunk. -/
theorem genuine_enters {f : RequestFrame} {data : Bytes} {base : ObjectInfo} {s' : Node}
    (hheld : f.held = some ⟨f.chunkIndex, data, .storage⟩)
    (hs : (genuineInvariant H handler content key index).holds (some f) s)
    (hdata : AtChunk key index f → Right H handler content index data)
    (hcopies : AtChunk key index f → ¬ Recorded key index s →
      ∀ d, Copy s.cache (chunkIdAt handler key index) d → Right H handler content index d)
    (henters : Enters f.info base f.chunkIndex (H.hex data) s s') :
    (genuineInvariant H handler content key index).holds (some f) s' := by
  obtain ⟨⟨hfaultless, hbefore, hkept⟩, -, hfetched, hhold⟩ := hs
  have hnow : Recorded key index s' →
      Recorded key index s ∨ ¬ Recorded key index s ∧ AtChunk key index f := by
    rintro ⟨a, ha, hkey, hindex⟩
    by_cases hrecorded : Recorded key index s
    · exact Or.inl hrecorded
    · refine Or.inr ⟨hrecorded, ?_⟩
      rw [henters.anchors, List.mem_append, List.mem_singleton] at ha
      rcases ha with hold | rfl
      · exact absurd ⟨a, hold, hkey, hindex⟩ hrecorded
      · exact ⟨hkey, hindex⟩
  refine ⟨⟨henters.setup.faultless hfaultless, ?_, ?_⟩, trivial, ?_, ?_⟩
  · intro a ha hkey hindex
    rw [henters.anchors, List.mem_append, List.mem_singleton] at ha
    rcases ha with hold | rfl
    · exact hbefore a hold hkey hindex
    · exact hdata ⟨hkey, hindex⟩
  · intro hrecorded d hd
    rcases henters.copies _ d hd with hold | ⟨hfile, -⟩
    · rcases hnow hrecorded with hearlier | ⟨hfirst, hat⟩
      · exact hkept hearlier d hold
      · exact hcopies hat hfirst d hold
    · exact absurd hfile.symm (not_sameFile_meta_chunk handler
        { f.info with fullObjectKey := key } index f.info.fullObjectKey)
  · intro chunk hchunk
    refine ⟨(hfetched chunk hchunk).1, ?_⟩
    intro hrecorded hkey hindex
    rcases hnow hrecorded with hearlier | ⟨-, hat⟩
    · exact (hfetched chunk hchunk).2 hearlier hkey hindex
    · -- The request has not held this chunk yet.
      have hlt := (hfetched chunk hchunk).1
      rw [hat.2, hindex] at hlt
      exact absurd hlt (Nat.lt_irrefl _)
  · intro chunk hchunk
    refine ⟨(hhold chunk hchunk).1, ?_⟩
    intro _ hkey hindex
    rw [hheld] at hchunk
    cases hchunk
    exact hdata ⟨hkey, hindex⟩

theorem genuine_delivered {f : RequestFrame} {data : Bytes}
    (hsafe : PeerSafe H handler content key index f)
    (hexpected : (chunkRequest handler f.info f.obj f.chunkIndex).expectedSha256 ≠ [] →
      H.hex data = (chunkRequest handler f.info f.obj f.chunkIndex).expectedSha256)
    (hat : AtChunk key index f) : Right H handler content index data := by
  have hwanted : (chunkRequest handler f.info f.obj f.chunkIndex).expectedSha256 =
      originHash H handler content index := by
    rw [chunkRequest, hat.2]
    exact hsafe hat
  rw [hwanted] at hexpected
  exact hexpected (H.hex_ne_nil _)

theorem genuine_allows (hsize : 0 < handler.chunkSize)
    (hinfo : parseCacheKey request = some info) :
    (genuineInvariant H handler content key index).Allows
      ((genuineSpec H handler content key index).contract (.request request)) H handler
      info where
  holds _ _ := Iff.rfl
  spares _ _ _ hanchors := RecordsInTurn.of_anchors hanchors
  enters _ _ _ _ _ hanchors := RecordsInTurn.of_enters hanchors
  faultless s hs := hs.1
  quiet frame s s' hs hquiet := by
    cases frame with
    | none => exact genuine_quiet hs hquiet
    | some f => exact genuine_frame hquiet.anchors hs (genuine_quiet hs.1 hquiet)
  parsed _ _ _ _ _ _ := trivial
  described _ _ _ _ _ := ⟨trivial, trivial⟩
  lines h s hs := by
    apply sat_downloadFromPeers (genuine_transfer _)
    · exact hs
    · exact fun h' s' hs' => ⟨rfl, hs', fun _ _ _ _ => ⟨trivial, trivial⟩⟩
    · exact fun h' s' data hs' _ _ => ⟨rfl, hs', fun _ _ _ _ => ⟨trivial, trivial⟩⟩
  storesLine h s s' line hs _ _ hstores := genuine_storesMeta info hs hstores
  cached f s data _ hs hcopy hrecorded hkey hindex := by
    rw [chunkIdOf_of_atChunk ⟨hkey, hindex⟩] at hcopy
    exact hs.1.2.2 hrecorded data hcopy
  chunks f h s _ hs := by
    apply sat_downloadFromPeers (genuine_transfer _)
    · exact hs
    · exact fun h' s' hs' => ⟨rfl, hs', nofun⟩
    · intro h' s' data hs' hK hexpected
      refine ⟨rfl, hs', fun d hd hrecorded hkey hindex => ?_⟩
      cases hd
      exact genuine_delivered (hK hrecorded f rfl) hexpected ⟨hkey, hindex⟩
  served f h s data hf _ hadmits := by
    obtain ⟨hserved, hwhole⟩ := hadmits data rfl
    have hdata : f.info.fullObjectKey = key → f.chunkIndex = index →
        Right H handler content index data := by
      intro hkey hindex
      have hasked := hserved (by rw [hf, fullObjectKey_of_parseCacheKey hinfo, ← hf, hkey])
      rw [hindex, hwhole f rfl ⟨hkey, hindex⟩, segment_wantedSize rfl] at hasked
      rw [Right, hasked, originHash]
    exact ⟨hdata, fun _ => hdata⟩
  storesChunk f h s s' chunk _ hheld hs hadmits hstores :=
    genuine_storesChunk hsize hheld hs (fun hrecorded => (hadmits hrecorded).1 f rfl) hstores
  records f h s s' data base _ hheld horigin hs hadmits _ henters :=
    genuine_enters hheld hs (fun hat => horigin hat.1 hat.2)
      (fun hat => hadmits hat.1 hat.2) henters

end Requests

/-! ## Every run -/

theorem genuine_server : ServerContract H
    ((genuineSpec H handler content key index).contract .chunkConnection)
    (Knows H handler content key index) where
  transfer := genuine_transfer _
  spares _ _ _ hanchors := RecordsInTurn.of_anchors hanchors
  faultless s hs := hs.1
  quiet s s' hs hquiet := genuine_quiet hs hquiet
  stores h s s' id data hs hadmits hupload hstores := by
    apply genuine_stores hs hstores
    intro hrecorded hfile
    exact (hadmits hrecorded).2 rfl (id, data) hupload hfile.symm

theorem genuine_routine {job : Job} {s : Node} {α : Type} {c : Proc α} {result : α → JobResult}
    {Q : List (Event nodeSignature) → α → Prop}
    (hs : (genuineInvariant H handler content key index).shared s)
    (hc : Guarantees ((genuineSpec H handler content key index).contract job)
      (Knows H handler content key index) none c Q)
    (hQ : ∀ h value, Q h value → DownloadJoined H job ⟨exchangesOf h, result value⟩)
    (hjob : ∀ request, job ≠ .request request) :
    (do pure (result (← c)) : Proc JobResult).Sat
      ((genuineSpec H handler content key index).contract job)
      ((genuineSpec H handler content key index).post job) [] none s := by
  apply Sat.bind
  apply (hc.sat hs).mono
  rintro h frame value s' ⟨-, new, rfl, hs', -, hvalue⟩
  exact ⟨hs', hQ _ value hvalue, fun request _ hrequest => absurd hrequest (hjob request)⟩

theorem genuine_entry (hsize : 0 < handler.chunkSize) (job : Job) {s : Node}
    (hs : (genuineInvariant H handler content key index).shared s) :
    ((nodeProgram H fuel handler).entry job).Sat
      ((genuineSpec H handler content key index).contract job)
      ((genuineSpec H handler content key index).post job) [] none s := by
  cases job with
  | request request =>
      apply RequestInvariant.sat_entry_request (fun info hinfo => genuine_allows hsize hinfo) hs
      intro h frame handled s' hpost
      refine ⟨hpost.1, trivial, ?_⟩
      intro request' handled' hrequest hresult
      cases hrequest
      cases hresult
      exact hpost
  | downloadFromPeer ctx peer expectedSha256 =>
      refine genuine_routine hs (guarantees_downloadFromPeer (genuine_transfer _) ctx peer _) ?_
        nofun
      intro h value hvalue result hresult hsuccess
      cases hresult
      exact hvalue hsuccess
  | downloadChunk request =>
      exact genuine_routine hs (guarantees_downloadChunk (genuine_transfer _) request)
        (fun _ _ _ => trivial) nofun
  | uploadChunk chunkId data peer =>
      exact genuine_routine hs (guarantees_uploadChunk (genuine_transfer _) chunkId data peer)
        (fun _ _ _ => trivial) nofun
  | chunkConnection =>
      apply Sat.bind
      apply (genuine_server.sat_handleChunkRequest hs).mono
      intro h frame value s' hs'
      exact ⟨hs', trivial, nofun⟩
  | cancelTransfer chunkId =>
      exact genuine_routine hs (guarantees_onTransfer (genuine_transfer _)
        (Q := fun _ _ => True) fun _ => trivial) (fun _ _ _ => trivial) nofun
  | discovery op =>
      apply Sat.bind
      apply sat_atomically
      · intro value s' hop
        cases hop
        exact RecordsInTurn.of_anchors rfl
      · intro value s' hop
        cases hop
        exact ⟨hs, trivial, nofun⟩

theorem genuineSpec_valid (hsize : 0 < handler.chunkSize) :
    (genuineSpec H handler content key index).Valid (nodeProgram H fuel handler) where
  entry job s _ hs := genuine_entry hsize job hs
  changes_refl _ _ := RecordsInTurn.of_anchors rfl
  changes_trans _ _ _ _ hst htu := hst.trans htu
  shared_of_holds _ _ hs := RequestInvariant.shared_of_holds hs
  shared_of_post job h frame result s hpost := hpost.1
  joined_of_post job h frame result s hpost := hpost.2.1

theorem knows_of_guarded {sys : System nodeSignature} {id : Nat}
    {reply : (e : External) → e.Answer} {task : Task nodeSignature} {h : List (Event nodeSignature)}
    (hguarded : Guarded H handler content key index sys (.resume id reply))
    (htask : sys.tasks[id]? = some task) (hpeer : waitsForPeer task = true) :
    Knows H handler content key index h task.frame sys.shared :=
  fun hrecorded f hf => (hguarded task htask).2.1 hpeer hrecorded f hf

theorem knowsTurn_of_guarded {sys : System nodeSignature} {id : Nat}
    {reply : (e : External) → e.Answer} {task : Task nodeSignature} {access : Access}
    (hguarded : Guarded H handler content key index sys (.resume id reply))
    (htask : sys.tasks[id]? = some task) (haccess : access ∈ accessOf task) :
    KnowsTurn H handler content key index task.job task.history task.frame sys.shared access := by
  obtain ⟨hstore, hrecord⟩ := (hguarded task htask).2.2 access haccess
  cases access with
  | load id => trivial
  | announce id => trivial
  | store id data => exact fun hrecorded => hstore hrecorded
  | record fullObjectKey obj chunkIndex hash =>
      intro hkey hindex hfirst d hd
      exact (hrecord ⟨hkey, hindex⟩ hfirst).1 d (mem_copiesOf.mpr hd)

theorem mem_chunks {f : RequestFrame} {chunk : FetchedChunk} :
    chunk ∈ f.chunks ↔ chunk ∈ f.assembly.fetched ∨ chunk ∈ f.held := by
  rw [RequestFrame.chunks, List.mem_append, Option.mem_toList, Option.mem_def]

theorem frameSafe_of_records {sys : System nodeSignature} {id other : Nat}
    {reply : (e : External) → e.Answer} {resumed task : Task nodeSignature} {f : RequestFrame}
    {access : Access} (hguarded : Guarded H handler content key index sys (.resume id reply))
    (hresumed : sys.tasks[id]? = some resumed) (haccess : access ∈ accessOf resumed)
    (hrecords : RecordsAt key index access) (hbefore : ¬ Recorded key index sys.shared)
    (hne : other ≠ id) (htask : sys.tasks[other]? = some task) (hresult : task.result? = none)
    (hframe : task.frame = some f) : FrameSafe H handler content key index f := by
  have hother : task ∈ sys.tasks.eraseIdx id :=
    List.mem_eraseIdx_iff_getElem?.mpr ⟨other, hne, htask⟩
  exact (((hguarded resumed hresumed).2.2 access haccess).2 hrecords hbefore).2 task hother
    hresult f hframe

theorem stepMeets_genuine {sys : System nodeSignature} {action : Action nodeSignature} {s' : Node}
    (hserves : OriginServes content key action)
    (hguarded : Guarded H handler content key index sys action) :
    StepMeets (genuineSpec H handler content key index) (nodeProgram H fuel handler) sys action
      s' where
  start job _ := trivial
  admits id reply task w next hresume htask hrest _ r hr := by
    subst hresume
    have hpeer : waitsForPeer task = true →
        Knows H handler content key index task.history task.frame sys.shared :=
      knows_of_guarded hguarded htask
    cases w with
    | spawn job => exact hpeer (by simp [waitsForPeer, hrest])
    | join child job => exact ⟨hpeer (by simp [waitsForPeer, hrest]), hr⟩
    | external e =>
        cases hr
        cases e with
        | headObject bucket objectKey => trivial
        | getObject bucket objectKey offset length =>
            intro data hdata
            refine ⟨fun hkey => hserves bucket objectKey offset length data hkey hdata, ?_⟩
            exact fun f hf => (hguarded task htask).1 (by simp [waitsForStorage, hrest]) f hf
        | lock access =>
            exact knowsTurn_of_guarded hguarded htask (by rw [accessOf, hrest, Option.mem_def])
        | _ => exact hpeer (by simp [waitsForPeer, hrest])
  stable id reply resumed h other task hresume hresumed hwakes hchanges hne htask hresult hholds
      hblank := by
    subst hresume
    cases hframe : task.frame with
    | none => exact hblank
    | some f =>
        rw [hframe] at hholds
        have hstays : ∀ chunk ∈ f.chunks,
            (genuineInvariant H handler content key index).chunk sys.shared f.info chunk →
            (genuineInvariant H handler content key index).chunk s' f.info chunk := by
          intro chunk hchunk hright hnow hkey hindex
          by_cases hbefore : Recorded key index sys.shared
          · exact hright hbefore hkey hindex
          · obtain ⟨access, haccess, hrecords⟩ := records_of_wakes hwakes hchanges hbefore hnow
            exact frameSafe_of_records hguarded hresumed haccess hrecords hbefore hne htask hresult
              hframe chunk hchunk hkey hindex
        exact ⟨hblank, trivial,
          fun chunk hchunk => ⟨(hholds.2.2.1 chunk hchunk).1,
            hstays chunk (mem_chunks.mpr (Or.inl hchunk)) (hholds.2.2.1 chunk hchunk).2⟩,
          fun chunk hchunk => ⟨(hholds.2.2.2 chunk hchunk).1,
            hstays chunk (mem_chunks.mpr (Or.inr hchunk)) (hholds.2.2.2 chunk hchunk).2⟩⟩

/-- What a request that has ended was made from. -/
def ResponseGenuine (H : Sha256) (handler : RequestHandler) (content key : Bytes) (index : Nat)
    (task : Task nodeSignature) : Prop :=
  ∀ request handled info, task.job = .request request →
    task.result? = some (.response handled) → parseCacheKey request = some info →
      info.fullObjectKey = key → ∀ chunk ∈ handled.fetched, chunk.index = index →
        H.hex chunk.data = originHash H handler content index

structure EndsGenuine (H : Sha256) (fuel : Nat) (handler : RequestHandler) (content key : Bytes)
    (index : Nat) (start sys : System nodeSignature) : Prop where
  sound : sys.Sound (genuineSpec H handler content key index) (nodeProgram H fuel handler)
  recorded : Recorded key index sys.shared
  genuine : ∀ (id : Nat) task, sys.tasks[id]? = some task →
    start.tasks[id]? = some task ∨ ResponseGenuine H handler content key index task

theorem EndsGenuine.step (hsize : 0 < handler.chunkSize) {start sys sys' : System nodeSignature}
    {action : Action nodeSignature} (h : EndsGenuine H fuel handler content key index start sys)
    (hserves : OriginServes content key action)
    (hguarded : Guarded H handler content key index sys action)
    (hstep : (nodeProgram H fuel handler).step sys action = some sys') :
    EndsGenuine H fuel handler content key index start sys' := by
  obtain ⟨hsound, ⟨history, hchanges⟩, hpost⟩ := h.sound.step (genuineSpec_valid hsize) hstep
    (stepMeets_genuine hserves hguarded)
  have hrecorded : Recorded key index sys'.shared := by
    obtain ⟨a, ha, hwhich⟩ := h.recorded
    exact ⟨a, hchanges.1 ha, hwhich⟩
  refine ⟨hsound, hrecorded, ?_⟩
  intro id task htask
  cases hresult : task.result? with
  | none =>
      right
      intro request handled info _ hended
      rw [hresult] at hended
      cases hended
  | some result =>
      rcases hpost id task result htask hresult with hold | ⟨-, -, hresponse⟩
      · exact h.genuine id task hold
      · right
        intro request handled info hjob hended hinfo hkey chunk hchunk hindex
        rw [hresult] at hended
        exact (hresponse request handled hjob (Option.some.inj hended)).2 info hinfo chunk hchunk
          hrecorded hkey hindex

end RecordedHash

/-! ## An upload between two requests -/

def responseOf (task : Task nodeSignature) : Option Handled :=
  match task.result? with
  | some (.response handled) => some handled
  | _ => none

theorem result_of_responseOf {task : Task nodeSignature} {handled : Handled}
    (h : responseOf task = some handled) : task.result? = some (.response handled) := by
  unfold responseOf at h
  split at h
  · rename_i response hresult
    cases h
    exact hresult
  · cases h

def requestedKey (task : Task nodeSignature) : Option Bytes :=
  match task.job with
  | .request request => (parseCacheKey request).map CacheKeyInfo.fullObjectKey
  | _ => none

theorem request_of_requestedKey {task : Task nodeSignature} {key : Bytes}
    (h : requestedKey task = some key) : ∃ request info, task.job = .request request ∧
      parseCacheKey request = some info ∧ info.fullObjectKey = key := by
  unfold requestedKey at h
  split at h
  · rename_i request hjob
    obtain ⟨info, hinfo, hkey⟩ := Option.map_eq_some_iff.mp h
    exact ⟨request, info, hjob, hinfo, hkey⟩
  · cases h

end ElioP2P.Proxy
