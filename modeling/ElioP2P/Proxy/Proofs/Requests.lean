import ElioP2P.Cache.Proofs.Copies
import ElioP2P.Library.RelyGuarantee
import ElioP2P.Proxy.ChunkAccess

/-!
# Requests as tasks

What the sections of a proxied request do to the shared state, one lemma for
each, and the loop of `handle_request` for any contract whose parts are kept by
`get_object_info` and `fetch_chunk`.
-/

namespace ElioP2P.Proxy

open ElioP2P.Library ElioP2P.Library.Coroutine ElioP2P.Cache ElioP2P.Cache.ChunkManager

/-! ## File names of chunks -/

/-- A name that ends in a letter or a digit is none of the special cases. -/
theorem sanitizeChunkFilename_concat (front : Bytes) {b : UInt8} (hb : isAlnum b = true) :
    sanitizeChunkFilename (front ++ [b])
      = (front.map fun c => if isFilenameByte c then c else 95) ++ [b] := by
  have hdot : b ≠ 46 := by
    rintro rfl
    simp [isAlnum, isDigit] at hb
  have hname : isFilenameByte b = true := by simp [isFilenameByte, hb]
  have hspecial : ∀ text : Bytes, text.getLast? = some 46 →
      (front.map fun c => if isFilenameByte c then c else 95) ++ [b] ≠ text := by
    rintro text htext rfl
    simp only [List.getLast?_append, List.getLast?_singleton, Option.some_or,
      Option.some.injEq] at htext
    exact hdot htext
  unfold sanitizeChunkFilename
  simp only [List.map_append, List.map_cons, List.map_nil, hname, if_true]
  rw [if_neg]
  simp only [Bool.or_eq_true, List.isEmpty_iff, beq_iff_eq, not_or]
  exact ⟨⟨by simp, hspecial _ rfl⟩, hspecial _ rfl⟩

theorem exists_decimal_concat (n : Nat) : ∃ ds d, decimal n = ds ++ [d] ∧ isDigit d = true := by
  rcases List.eq_nil_or_concat (decimal n) with hnil | ⟨ds, d, hconcat⟩
  · exact absurd hnil (decimal_ne_nil n)
  · rw [List.concat_eq_append] at hconcat
    exact ⟨ds, d, hconcat, isDigit_of_mem_decimal (n := n) (by rw [hconcat]; simp)⟩

theorem isAlnum_of_isDigit {b : UInt8} (h : isDigit b = true) : isAlnum b = true := by
  simp [isAlnum, h]

theorem sanitize_chunkIdOf (handler : RequestHandler) (info : CacheKeyInfo) (chunkIndex : Nat) :
    sanitizeChunkFilename (chunkIdOf handler info chunkIndex)
      = (info.fullObjectKey.map fun c => if isFilenameByte c then c else 95) ++ ascii "_" ++
        decimal (chunkIndex * handler.chunkSize / handler.chunkSize) := by
  obtain ⟨ds, d, hdecimal, hd⟩ :=
    exists_decimal_concat (chunkIndex * handler.chunkSize / handler.chunkSize)
  have hdigits : ∀ b ∈ ds, isFilenameByte b = true := by
    intro b hb
    have hdigit : isDigit b = true :=
      isDigit_of_mem_decimal (n := chunkIndex * handler.chunkSize / handler.chunkSize)
        (by rw [hdecimal]; simp [hb])
    simp [isFilenameByte, isAlnum_of_isDigit hdigit]
  have hds : (ds.map fun c => if isFilenameByte c then c else 95) = ds := by
    rw [List.map_congr_left (g := id) fun b hb => by simp [hdigits b hb], List.map_id]
  rw [chunkIdOf, computeChunkId, hdecimal, ← List.append_assoc,
    sanitizeChunkFilename_concat _ (isAlnum_of_isDigit hd),
    List.map_append, List.map_append, hds, ← List.append_assoc]
  rfl

/-- A `#meta` chunk never shares a file with a data chunk. -/
theorem not_sameFile_meta_chunk (handler : RequestHandler) (info : CacheKeyInfo) (chunkIndex : Nat)
    (key : Bytes) : ¬ SameFile (metaKey key) (chunkIdOf handler info chunkIndex) := by
  intro h
  have hmeta : metaKey key = (key ++ ascii "#met") ++ [97] := by
    rw [metaKey, List.append_assoc]
    rfl
  obtain ⟨ds, d, hdecimal, hd⟩ :=
    exists_decimal_concat (chunkIndex * handler.chunkSize / handler.chunkSize)
  rw [SameFile, hmeta, sanitizeChunkFilename_concat _ (by decide), sanitize_chunkIdOf, hdecimal,
    ← List.append_assoc] at h
  have hlast : (97 : UInt8) = d := by
    have := congrArg List.getLast? h
    simpa using this
  rw [← hlast] at hd
  cases hd

theorem sameFile_chunkIdOf {handler : RequestHandler} (hsize : 0 < handler.chunkSize)
    {info info' : CacheKeyInfo} {i j : Nat} (hkey : info.fullObjectKey = info'.fullObjectKey)
    (h : SameFile (chunkIdOf handler info i) (chunkIdOf handler info' j)) : i = j := by
  rw [SameFile, sanitize_chunkIdOf, sanitize_chunkIdOf, hkey, Nat.mul_div_cancel _ hsize,
    Nat.mul_div_cancel _ hsize] at h
  exact decimal_injective (List.append_cancel_left h)

theorem fullObjectKey_of_parseCacheKey {request : HttpRequest} {info : CacheKeyInfo}
    (h : parseCacheKey request = some info) :
    info.bucket ++ ascii "/" ++ info.objectKey = info.fullObjectKey := by
  simp only [parseCacheKey, Option.ite_none_left_eq_some, Option.some.injEq] at h
  obtain ⟨-, rfl⟩ := h
  rfl

/-! ## What a section does to the cache -/

structure Quiet (s s' : Node) : Prop where
  anchors : s'.anchors = s.anchors
  transfer : s'.transfer = s.transfer
  setup : SameSetup s.cache s'.cache
  copies : ∀ k d, Copy s'.cache k d → Copy s.cache k d

theorem Quiet.refl (s : Node) : Quiet s s := ⟨rfl, rfl, SameSetup.refl _, fun _ _ h => h⟩

theorem Quiet.trans {s t u : Node} (hst : Quiet s t) (htu : Quiet t u) : Quiet s u where
  anchors := htu.anchors.trans hst.anchors
  transfer := htu.transfer.trans hst.transfer
  setup := hst.setup.trans htu.setup
  copies k d h := hst.copies k d (htu.copies k d h)

theorem Quiet.of_discovery (s : Node) (discovery : P2P.NodeDiscovery) :
    Quiet s { s with discovery := discovery } :=
  ⟨rfl, rfl, SameSetup.refl _, fun _ _ h => h⟩

/-- The only new copies are those of `data` in the file of `id`. -/
structure Stores (id data : Bytes) (s s' : Node) : Prop where
  anchors : s'.anchors = s.anchors
  transfer : s'.transfer = s.transfer
  setup : SameSetup s.cache s'.cache
  copies : ∀ k d, Copy s'.cache k d → (SameFile k id ∧ d = data) ∨ Copy s.cache k d

theorem storeChunk_spec {H : Sha256} {fuel : Nat} {s s' : ChunkManager} {id data : Bytes}
    {ok : Bool} (hs : s.fileSystem.Faultless) (h : s.storeChunk H fuel id data = some (ok, s')) :
    SameSetup s s' ∧
      (∀ k d, Copy s' k d → (SameFile k id ∧ d = data) ∨ Copy s k d) ∧
      (data.length ≤ s.memoryCache.config.maxCapacity ∨ s.memoryCache.dataOf id = none →
        ∀ d, Copy s' id d → d = data) := by
  rw [storeChunk_eq] at h
  have hsize := sizeOk_freshMetadata H s.memoryCache.currentTime.1 id data
  have hsetup := (storeChunkWithMetadata_spec h hsize).1
  have hticked : { s with memoryCache := s.memoryCache.currentTime.2 }.fileSystem.Faultless := hs
  refine ⟨⟨hsetup.diskCachePath, hsetup.config, hsetup.outcome⟩, ?_, ?_⟩
  · intro k d hd
    exact copy_of_store hticked h hd
  · intro hfit d hd
    exact copy_of_store_same hticked h hsize hfit hd

theorem provideFromCache_spec {fuel : Nat} {id : Bytes} {s s' : Node} {data : Option Bytes}
    (h : provideFromCache fuel id s = some (data, s')) :
    (∀ d, data = some d → Copy s.cache id d) ∧ Quiet s s' := by
  simp only [provideFromCache, Option.bind_eq_bind, Option.bind_eq_some_iff, Option.some.injEq,
    Prod.mk.injEq] at h
  obtain ⟨⟨chunk, cache⟩, hget, rfl, rfl⟩ := h
  have hspec := getChunk_spec hget
  refine ⟨fun d hd => ?_, rfl, rfl, hspec.2.1, fun k d hd => copy_of_getChunk hget hd⟩
  obtain ⟨c, hc, rfl⟩ := Option.map_eq_some_iff.mp hd
  exact hspec.1 c hc

theorem consumeIntoCache_spec {H : Sha256} {fuel : Nat} {id data : Bytes} {s s' : Node} {ok : Bool}
    (hs : s.cache.fileSystem.Faultless) (h : consumeIntoCache H fuel id data s = some (ok, s')) :
    Stores id data s s' := by
  simp only [consumeIntoCache, Option.bind_eq_bind, Option.bind_eq_some_iff, Option.some.injEq,
    Prod.mk.injEq] at h
  obtain ⟨⟨stored, cache⟩, hstore, rfl, rfl⟩ := h
  obtain ⟨hsetup, hcopies, -⟩ := storeChunk_spec hs hstore
  exact ⟨rfl, rfl, hsetup, hcopies⟩

/-- A contract that leaves a task free as long as the record of hashes stays as it is. -/
def SparesAnchors (C : Contract nodeSignature) : Prop :=
  ∀ h (s s' : Node), s'.anchors = s.anchors → C.changes h s s'

def turn (access : Access) : Event nodeSignature := .external ⟨.lock access, ()⟩

def accessOf (task : Task nodeSignature) : Option Access :=
  match task.rest with
  | .await (.external (.lock access)) _ => some access
  | _ => none

def AtTurn (P : Node → Access → Prop) (sys : System nodeSignature) : Action nodeSignature → Prop
  | .start _ => True
  | .resume id _ => ∀ task ∈ sys.tasks[id]?, ∀ access ∈ accessOf task, P sys.shared access

instance (P : Node → Access → Prop) [∀ s access, Decidable (P s access)]
    (sys : System nodeSignature) : ∀ action, Decidable (AtTurn P sys action)
  | .start _ => inferInstanceAs (Decidable True)
  | .resume id _ => inferInstanceAs (Decidable (∀ task ∈ sys.tasks[id]?,
      ∀ access ∈ accessOf task, P sys.shared access))

theorem AtTurn.holds {P : Node → Access → Prop} {sys : System nodeSignature} {id : Nat}
    {reply : (e : External) → e.Answer} {task : Task nodeSignature} {access : Access}
    {next : (Wait.external (S := nodeSignature) (.lock access)).Reply →
      Coroutine nodeSignature JobResult}
    (h : AtTurn P sys (.resume id reply)) (htask : sys.tasks[id]? = some task)
    (hrest : task.rest = .await (.external (.lock access)) next) : P sys.shared access :=
  h task htask access (by rw [accessOf, hrest, Option.mem_def])

section Sections

variable {H : Sha256} {fuel : Nat} {handler : RequestHandler} {C : Contract nodeSignature}
  {h : List (Event nodeSignature)} {frame : nodeSignature.Frame} {s : Node}

theorem sat_lock {access : Access} (hs : C.holds frame s)
    {post : List (Event nodeSignature) → nodeSignature.Frame → Unit → Node → Prop}
    (hpost : ∀ s₀, C.holds frame s₀ → C.admits h frame s₀ (.external (.lock access)) () →
      post (h ++ [turn access]) frame () s₀) :
    (lock access).Sat C post h frame s :=
  sat_ask hs fun _ s₀ hs₀ hadmits => hpost s₀ hs₀ hadmits

theorem sat_loadChunk (hC : SparesAnchors C) (hs : C.holds frame s) {id : Bytes}
    {post : List (Event nodeSignature) → nodeSignature.Frame → Option Bytes → Node → Prop}
    (hpost : ∀ s₀ data s', C.holds frame s₀ → (∀ d, data = some d → Copy s₀.cache id d) →
      Quiet s₀ s' → post (h ++ [turn (.load id)]) frame data s') :
    (loadChunk fuel id).Sat C post h frame s := by
  apply Sat.bind
  apply sat_lock hs
  intro s₀ hs₀ _
  apply sat_atomically
  · intro data s' hload
    exact hC _ s₀ s' (provideFromCache_spec hload).2.anchors
  · intro data s' hload
    obtain ⟨hcopy, hquiet⟩ := provideFromCache_spec hload
    exact hpost s₀ data s' hs₀ hcopy hquiet

theorem sat_storeChunk (hC : SparesAnchors C) (hs : C.holds frame s)
    (hfaultless : ∀ s, C.holds frame s → s.cache.fileSystem.Faultless) {id data : Bytes}
    {post : List (Event nodeSignature) → nodeSignature.Frame → Bool → Node → Prop}
    (hpost : ∀ s₀ ok s', C.holds frame s₀ →
      C.admits h frame s₀ (.external (.lock (.store id data))) () → Stores id data s₀ s' →
        post (h ++ [turn (.store id data)]) frame ok s') :
    (storeChunk H fuel id data).Sat C post h frame s := by
  apply Sat.bind
  apply sat_lock hs
  intro s₀ hs₀ hadmits
  apply sat_atomically
  · intro ok s' hstore
    exact hC _ s₀ s' (consumeIntoCache_spec (hfaultless s₀ hs₀) hstore).anchors
  · intro ok s' hstore
    exact hpost s₀ ok s' hs₀ hadmits (consumeIntoCache_spec (hfaultless s₀ hs₀) hstore)

theorem sat_announceLocalChunk (hC : SparesAnchors C) (hs : C.holds frame s)
    (hquiet : ∀ s s', C.holds frame s → Quiet s s' → C.holds frame s') {id : Bytes}
    {post : List (Event nodeSignature) → nodeSignature.Frame → Unit → Node → Prop}
    (hpost : ∀ h' s', C.holds frame s' → post h' frame () s') :
    (announceLocalChunk handler id).Sat C post h frame s := by
  unfold announceLocalChunk
  split
  · apply Sat.bind
    apply sat_lock hs
    intro s₀ hs₀ _
    apply sat_atomically
    · intro value s' hannounce
      cases hannounce
      exact hC _ s₀ _ rfl
    · intro value s' hannounce
      cases hannounce
      exact hpost _ _ (hquiet s₀ _ hs₀ (Quiet.of_discovery s₀ _))
  · exact hpost h s hs

theorem sat_downloadFromPeers_disabled {request : P2P.TransferRequest}
    (hp2p : (handler.enableP2pFallback && handler.hasTransferManager) = false)
    {post : List (Event nodeSignature) → nodeSignature.Frame → Option Bytes → Node → Prop}
    (hpost : post h frame none s) :
    (downloadFromPeers H handler request).Sat C post h frame s := by
  unfold downloadFromPeers
  rw [if_neg (by simp [hp2p])]
  exact hpost

/-! ## The recording of a hash -/

/-- The object infos into which a hash may be entered: what the `#meta` chunk in memory
says, and if there is none, what the one on disk says and what the request knows. -/
def candidates (s : Node) (key : Bytes) (obj : ObjectInfo) : List ObjectInfo :=
  (s.cache.memoryCache.dataOf (metaKey key)).elim
    (obj :: ((s.cache.loadFromDisk (metaKey key)).bind parseMeta).toList)
    fun line => [(parseMeta line).getD obj]

theorem mem_candidates {cache : ChunkManager} {key : Bytes} {obj : ObjectInfo}
    {chunk : Option Chunk} (hget : s.cache.getChunk fuel (metaKey key) = some (chunk, cache)) :
    ((chunk.map Chunk.data).bind parseMeta).getD obj ∈ candidates s key obj := by
  unfold candidates
  cases hmemory : s.cache.memoryCache.dataOf (metaKey key) with
  | some line =>
      rw [data_getChunk_of_memory hmemory hget]
      exact List.mem_singleton.mpr rfl
  | none =>
      rw [Option.elim_none, List.mem_cons]
      cases chunk with
      | none => exact Or.inl rfl
      | some c =>
          have hdisk : s.cache.loadFromDisk (metaKey key) = some c.data := by
            rcases (getChunk_spec hget).1 c rfl with hcached | hdisk
            · rw [hmemory] at hcached
              cases hcached
            · exact hdisk
          rw [hdisk, Option.map_some, Option.bind_some]
          cases parseMeta c.data with
          | none => exact Or.inl rfl
          | some base => exact Or.inr (by simp)

def enteredLine (base : ObjectInfo) (chunkIndex : Nat) (hash : Bytes) : Bytes :=
  serializeMeta
    { base with chunkHashes := (resizeHashes base.chunkHashes chunkIndex).set chunkIndex hash }

/-- The length of a line once a hash of 64 digits has been entered: each new place
takes one space. -/
def grownLength (base : ObjectInfo) (chunkIndex : Nat) : Nat :=
  (serializeMeta base).length + (chunkIndex + 1 - base.chunkHashes.length) + 64

theorem length_flatMap_set {words : List Bytes} {i : Nat} {word : Bytes} (hi : i < words.length)
    (hvacant : words.getD i [] = []) :
    ((words.set i word).flatMap (ascii " " ++ ·)).length =
      (words.flatMap (ascii " " ++ ·)).length + word.length := by
  induction words generalizing i with
  | nil => cases hi
  | cons first words ih =>
      cases i with
      | zero =>
          obtain rfl : first = [] := hvacant
          simp only [List.set_cons_zero, List.flatMap_cons, List.length_append]
          simp only [List.length_nil]
          omega
      | succ i =>
          have hrest := ih (Nat.lt_of_succ_lt_succ hi) hvacant
          simp only [List.set_cons_succ, List.flatMap_cons, List.length_append, hrest]
          omega

theorem length_enteredLine {base : ObjectInfo} {chunkIndex : Nat} {hash : Bytes}
    (hhash : hash.length = 64)
    (hvacant : (resizeHashes base.chunkHashes chunkIndex).getD chunkIndex [] = []) :
    (enteredLine base chunkIndex hash).length = grownLength base chunkIndex := by
  have hplace : chunkIndex < (resizeHashes base.chunkHashes chunkIndex).length := by
    rw [resizeHashes, List.length_append, List.length_replicate]
    omega
  have hspaces : ∀ n, ((List.replicate n ([] : Bytes)).flatMap (ascii " " ++ ·)).length = n := by
    intro n
    induction n with
    | zero => rfl
    | succ n ih =>
        rw [List.replicate_succ, List.flatMap_cons, List.length_append, ih, Nat.add_comm]
        rfl
  simp only [enteredLine, grownLength, serializeMeta, List.length_append]
  rw [length_flatMap_set hplace hvacant, hhash, resizeHashes, List.flatMap_append,
    List.length_append, hspaces]
  omega

/-- The list of `base` with room for an entry at `chunkIndex` has none there, and
one is made.  No older copy of the line is left if the memory cache takes it. -/
structure Enters (info : CacheKeyInfo) (base : ObjectInfo) (chunkIndex : Nat) (hash : Bytes)
    (s s' : Node) : Prop where
  vacant : (resizeHashes base.chunkHashes chunkIndex).getD chunkIndex [] = []
  anchors : s'.anchors = s.anchors ++ [⟨info.fullObjectKey, chunkIndex, hash⟩]
  transfer : s'.transfer = s.transfer
  setup : SameSetup s.cache s'.cache
  copies : ∀ k d, Copy s'.cache k d →
    Copy s.cache k d ∨ SameFile k (metaKey info.fullObjectKey) ∧
      d = enteredLine base chunkIndex hash
  only : (enteredLine base chunkIndex hash).length ≤ s.cache.memoryCache.config.maxCapacity →
    ∀ d, Copy s'.cache (metaKey info.fullObjectKey) d → d = enteredLine base chunkIndex hash

theorem enterHash_spec {info : CacheKeyInfo} {obj : ObjectInfo} {chunkIndex : Nat} {hash : Bytes}
    {entered : Bool} {s' : Node} (hs : s.cache.fileSystem.Faultless)
    (henter : enterHash H fuel info obj chunkIndex hash s = some (entered, s')) :
    Quiet s s' ∨ ∃ base ∈ candidates s info.fullObjectKey obj,
      Enters info base chunkIndex hash s s' := by
  simp only [enterHash, Option.bind_eq_bind, Option.bind_eq_some_iff] at henter
  obtain ⟨⟨chunk, cache⟩, hget, henter⟩ := henter
  have hsetup := (getChunk_spec hget).2.1
  have hread : ∀ k d, Copy cache k d → Copy s.cache k d := fun k d hd => copy_of_getChunk hget hd
  split at henter
  · rename_i hvacant
    simp only [Option.bind_eq_some_iff, Option.some.injEq, Prod.mk.injEq] at henter
    obtain ⟨⟨ok, stored⟩, hstore, -, rfl⟩ := henter
    obtain ⟨hstored, hcopies, honly⟩ := storeChunk_spec (hsetup.faultless hs) hstore
    refine Or.inr ⟨_, mem_candidates hget, List.isEmpty_iff.mp hvacant, rfl, rfl,
      hsetup.trans hstored, fun k d hd => ?_, ?_⟩
    · exact (hcopies k d hd).symm.imp_left (hread k d)
    · intro hfits d hd
      rw [← hsetup.config] at hfits
      exact honly (Or.inl hfits) d hd
  · cases henter
    exact Or.inl ⟨rfl, rfl, hsetup, hread⟩

end Sections

/-! ## What a contract says of requests -/

/-- Something about the shared state, about the object info a request works with and
each chunk it holds, and about what it has got and is about to store: a line for the
`#meta` chunk, and a chunk from the origin. -/
structure RequestInvariant where
  shared : Node → Prop
  object : CacheKeyInfo → ObjectInfo → Prop
  chunk : Node → CacheKeyInfo → FetchedChunk → Prop
  line : CacheKeyInfo → Bytes → Prop
  origin : CacheKeyInfo → Nat → Bytes → Prop

namespace RequestInvariant

def holds (R : RequestInvariant) : Option RequestFrame → Node → Prop
  | none, s => R.shared s
  | some f, s =>
      R.shared s ∧ R.object f.info f.obj ∧
        (∀ chunk ∈ f.assembly.fetched, chunk.index < f.chunkIndex ∧ R.chunk s f.info chunk) ∧
        ∀ chunk ∈ f.held, chunk.index = f.chunkIndex ∧ R.chunk s f.info chunk

theorem shared_of_holds {R : RequestInvariant} {frame : Option RequestFrame} {s : Node}
    (hs : R.holds frame s) : R.shared s := by
  cases frame with
  | none => exact hs
  | some f => exact hs.1

theorem holds_hold {R : RequestInvariant} {f : RequestFrame} {s : Node} {chunk : FetchedChunk}
    (hs : R.holds (some f) s) (hindex : chunk.index = f.chunkIndex)
    (hchunk : R.chunk s f.info chunk) : R.holds (some { f with held := some chunk }) s := by
  refine ⟨hs.1, hs.2.1, hs.2.2.1, fun held hheld => ?_⟩
  cases hheld
  exact ⟨hindex, hchunk⟩

structure Allows (R : RequestInvariant) (C : Contract nodeSignature) (H : Sha256)
    (handler : RequestHandler) (info : CacheKeyInfo) : Prop where
  holds : ∀ frame s, C.holds frame s ↔ R.holds frame s
  spares : SparesAnchors C
  enters : ∀ h (f : RequestFrame) hash (s s' : Node),
    s'.anchors = s.anchors ++ [⟨f.info.fullObjectKey, f.chunkIndex, hash⟩] →
      C.changes (h ++ [turn (.record f.info.fullObjectKey f.obj f.chunkIndex hash)]) s s'
  faultless : ∀ s, R.shared s → s.cache.fileSystem.Faultless
  quiet : ∀ frame s s', R.holds frame s → Quiet s s' → R.holds frame s'
  /-- A line that is in the cache tells of the object, and so does the origin. -/
  parsed : ∀ s line obj, R.shared s → Copy s.cache (metaKey info.fullObjectKey) line →
    parseMeta line = some obj → R.object info obj
  described : ∀ h s (head : ObjectMetadata), R.shared s →
    C.admits h none s (.external (.headObject info.bucket info.objectKey)) (some head) →
      R.object info { size := head.size, etag := head.etag } ∧
        R.line info (serializeMeta { size := head.size, etag := head.etag })
  lines : ∀ h s, R.shared s → (downloadFromPeers H handler (metaRequest info)).Sat C
    (fun _ frame data s' => frame = none ∧ R.shared s' ∧ ∀ line obj, data = some line →
      parseMeta line = some obj → R.object info obj ∧ R.line info line) h none s
  storesLine : ∀ h s s' line, R.shared s →
    C.admits h none s (.external (.lock (.store (metaKey info.fullObjectKey) line))) () →
      R.line info line → Stores (metaKey info.fullObjectKey) line s s' → R.shared s'
  /-- A chunk is in the cache, or it comes from peers or from the origin. -/
  cached : ∀ f s data, f.info = info → R.holds (some f) s →
    Copy s.cache (chunkIdOf handler f.info f.chunkIndex) data →
      R.chunk s f.info ⟨f.chunkIndex, data, .cache⟩
  chunks : ∀ f h s, f.info = info → R.holds (some f) s →
    (downloadFromPeers H handler (chunkRequest handler f.info f.obj f.chunkIndex)).Sat C
      (fun _ frame data s' => frame = some f ∧ R.holds (some f) s' ∧
        ∀ d, data = some d → R.chunk s' f.info ⟨f.chunkIndex, d, .p2p⟩) h (some f) s
  served : ∀ f h s data, f.info = info → R.holds (some f) s →
    C.admits h (some f) s (.external (.getObject f.info.bucket f.info.objectKey
      (f.chunkIndex * handler.chunkSize) (wantedSize handler f.obj f.chunkIndex))) (some data) →
      R.origin f.info f.chunkIndex data ∧ R.chunk s f.info ⟨f.chunkIndex, data, .storage⟩
  storesChunk : ∀ f h s s' chunk, f.info = info → f.held = some chunk → R.holds (some f) s →
    C.admits h (some f) s
      (.external (.lock (.store (chunkIdOf handler f.info f.chunkIndex) chunk.data))) () →
        Stores (chunkIdOf handler f.info f.chunkIndex) chunk.data s s' → R.holds (some f) s'
  records : ∀ f h s s' data base, f.info = info → f.held = some ⟨f.chunkIndex, data, .storage⟩ →
    R.origin f.info f.chunkIndex data → R.holds (some f) s →
    C.admits h (some f) s (.external (.lock
      (.record f.info.fullObjectKey f.obj f.chunkIndex (H.hex data)))) () →
    base ∈ candidates s f.info.fullObjectKey f.obj →
      Enters f.info base f.chunkIndex (H.hex data) s s' → R.holds (some f) s'

namespace Allows

variable {R : RequestInvariant} {C : Contract nodeSignature} {H : Sha256} {fuel : Nat}
  {handler : RequestHandler} {info : CacheKeyInfo} {h : List (Event nodeSignature)} {s : Node}
  {frame : Option RequestFrame} {f : RequestFrame}

/-! ### Sections -/

theorem faultless_of_holds (hR : R.Allows C H handler info) {frame : Option RequestFrame} (s : Node)
    (hs : C.holds frame s) : s.cache.fileSystem.Faultless :=
  hR.faultless s (shared_of_holds ((hR.holds frame s).mp hs))

theorem sat_cachedChunk (hR : R.Allows C H handler info) (hs : R.holds frame s) {id : Bytes}
    {post : List (Event nodeSignature) → nodeSignature.Frame → Option Bytes → Node → Prop}
    (hpost : ∀ h' s₀ data s', R.holds frame s₀ → (∀ d, data = some d → Copy s₀.cache id d) →
      Quiet s₀ s' → post h' frame data s') :
    (cachedChunk fuel handler id).Sat C post h frame s := by
  unfold cachedChunk
  split
  · apply sat_loadChunk hR.spares ((hR.holds frame s).mpr hs)
    intro s₀ data s' hs₀ hcopy hquiet
    exact hpost _ s₀ data s' ((hR.holds frame s₀).mp hs₀) hcopy hquiet
  · exact hpost h s none s hs nofun (Quiet.refl s)

theorem sat_cacheChunk (hR : R.Allows C H handler info) (hs : R.holds frame s) {id data : Bytes}
    {post : List (Event nodeSignature) → nodeSignature.Frame → Unit → Node → Prop}
    (hpost : ∀ h' s', R.holds frame s' → post h' frame () s')
    (hstores : ∀ s₀ s', R.holds frame s₀ →
      C.admits h frame s₀ (.external (.lock (.store id data))) () → Stores id data s₀ s' →
        R.holds frame s') :
    (cacheChunk H fuel handler id data).Sat C post h frame s := by
  unfold cacheChunk
  split
  · apply Sat.bind
    apply sat_storeChunk hR.spares ((hR.holds frame s).mpr hs) hR.faultless_of_holds
    intro s₀ ok s' hs₀ hadmits hstored
    exact hpost _ s' (hstores s₀ s' ((hR.holds frame s₀).mp hs₀) hadmits hstored)
  · exact hpost h s hs

theorem sat_announceLocalChunk (hR : R.Allows C H handler info) (hs : R.holds frame s) {id : Bytes}
    {post : List (Event nodeSignature) → nodeSignature.Frame → Unit → Node → Prop}
    (hpost : ∀ h' s', R.holds frame s' → post h' frame () s') :
    (announceLocalChunk handler id).Sat C post h frame s := by
  apply Proxy.sat_announceLocalChunk hR.spares ((hR.holds frame s).mpr hs)
  · intro s s' hs hquiet
    exact (hR.holds frame s').mpr (hR.quiet frame s s' ((hR.holds frame s).mp hs) hquiet)
  · exact fun h' s' hs' => hpost h' s' ((hR.holds frame s').mp hs')

/-! ### The object info -/

def Found (R : RequestInvariant) (info : CacheKeyInfo) (_ : List (Event nodeSignature))
    (_ : nodeSignature.Frame) (obj : Option ObjectInfo) (s : Node) : Prop :=
  R.shared s ∧ ∀ o, obj = some o → R.object info o

theorem found_some (h : List (Event nodeSignature)) (frame : nodeSignature.Frame)
    {obj : ObjectInfo} (hs : R.shared s) (hobj : R.object info obj) :
    Found R info h frame (some obj) s := by
  refine ⟨hs, fun o ho => ?_⟩
  cases ho
  exact hobj

theorem sat_headObjectInfo (hR : R.Allows C H handler info) (hs : R.shared s) :
    (headObjectInfo H fuel handler info).Sat C (Found R info) h none s := by
  unfold headObjectInfo
  split
  · exact ⟨hs, nofun⟩
  apply Sat.bind
  apply sat_ask ((hR.holds none s).mpr hs)
  intro answer s₀ hs₀ hadmits
  replace hs₀ := (hR.holds none s₀).mp hs₀
  cases answer with
  | none => exact ⟨hs₀, nofun⟩
  | some head =>
      obtain ⟨hobj, hline⟩ := hR.described h s₀ head hs₀ hadmits
      apply Sat.bind
      unfold publishMeta
      split
      · apply Sat.bind
        apply hR.sat_cacheChunk hs₀
        · intro h' s₁ hs₁
          apply hR.sat_announceLocalChunk hs₁
          exact fun h'' s₂ hs₂ => found_some h'' none hs₂ hobj
        · exact fun s₁ s₂ hs₁ hadmits hstores =>
            hR.storesLine _ s₁ s₂ _ hs₁ hadmits hline hstores
      · exact found_some h none hs₀ hobj

theorem sat_getObjectInfo (hR : R.Allows C H handler info) (hs : R.shared s) :
    (getObjectInfo H fuel handler info).Sat C (Found R info) h none s := by
  apply Sat.bind
  have hnow : R.holds none s := hs
  apply hR.sat_cachedChunk hnow
  intro h₁ s₀ cached s₁ hs₀ hcopy hquiet
  have hs₁ : R.shared s₁ := hR.quiet none s₀ s₁ hs₀ hquiet
  cases hparsed : cached.bind parseMeta with
  | some obj =>
      obtain ⟨line, hline, hobj⟩ := Option.bind_eq_some_iff.mp hparsed
      exact found_some h₁ none hs₁ (hR.parsed s₀ line obj hs₀ (hcopy line hline) hobj)
  | none =>
      apply Sat.bind
      apply (hR.lines h₁ s₁ hs₁).mono
      rintro h₂ frame₂ data s₂ ⟨rfl, hs₂, hdata⟩
      cases data with
      | none => exact hR.sat_headObjectInfo hs₂
      | some line =>
          rw [Option.bind_some]
          cases hobj : parseMeta line with
          | none => exact hR.sat_headObjectInfo hs₂
          | some obj =>
              obtain ⟨hgood, hline⟩ := hdata line obj rfl hobj
              apply Sat.bind
              have hnow : R.holds none s₂ := hs₂
              apply hR.sat_cacheChunk hnow
              · exact fun h₃ s₃ hs₃ => found_some h₃ none hs₃ hgood
              · exact fun s₃ s₄ hs₃ hadmits hstores =>
                  hR.storesLine _ s₃ s₄ _ hs₃ hadmits hline hstores

/-! ### Chunks -/

theorem sat_recordHash (hR : R.Allows C H handler info) (hf : f.info = info) {data : Bytes}
    (hheld : f.held = some ⟨f.chunkIndex, data, .storage⟩)
    (horigin : R.origin f.info f.chunkIndex data) (hs : R.holds (some f) s)
    {post : List (Event nodeSignature) → nodeSignature.Frame → Unit → Node → Prop}
    (hpost : ∀ h' s', R.holds (some f) s' → post h' (some f) () s') :
    (recordHash H fuel handler f.info f.obj f.chunkIndex (H.hex data)).Sat C post h (some f) s := by
  apply Sat.bind
  apply sat_lock ((hR.holds _ s).mpr hs)
  intro s₀ hs₀ hadmits
  replace hs₀ := (hR.holds _ s₀).mp hs₀
  have hentered : ∀ entered s₁, enterHash H fuel f.info f.obj f.chunkIndex (H.hex data) s₀ =
      some (entered, s₁) → C.changes (h ++ [turn (.record f.info.fullObjectKey f.obj f.chunkIndex
        (H.hex data))]) s₀ s₁ ∧ R.holds (some f) s₁ := by
    intro entered s₁ henter
    rcases enterHash_spec (hR.faultless s₀ hs₀.1) henter with hquiet | ⟨base, hbase, henters⟩
    · exact ⟨hR.spares _ s₀ s₁ hquiet.anchors, hR.quiet _ s₀ s₁ hs₀ hquiet⟩
    · refine ⟨hR.enters h f _ s₀ s₁ henters.anchors, ?_⟩
      exact hR.records f h s₀ s₁ data base hf hheld horigin hs₀ hadmits hbase henters
  apply Sat.bind
  apply sat_atomically
  · exact fun entered s₁ henter => (hentered entered s₁ henter).1
  intro entered s₁ henter
  have hs₁ := (hentered entered s₁ henter).2
  split
  · exact hR.sat_announceLocalChunk hs₁ hpost
  · exact hpost _ s₁ hs₁

def Held (R : RequestInvariant) (f : RequestFrame) (_ : List (Event nodeSignature))
    (frame : nodeSignature.Frame) (result : Option Bytes × ChunkSource) (s : Node) : Prop :=
  (∃ held, frame = some { f with held := held } ∧ R.holds (some { f with held := held }) s) ∧
    ∀ data, result.1 = some data → R.chunk s f.info ⟨f.chunkIndex, data, result.2⟩

theorem held_some {data : Bytes} {source : ChunkSource}
    (hs : R.holds (some { f with held := some ⟨f.chunkIndex, data, source⟩ }) s) :
    Held R f h (some { f with held := some ⟨f.chunkIndex, data, source⟩ })
      (some data, source) s := by
  refine ⟨⟨_, rfl, hs⟩, fun d hd => ?_⟩
  cases hd
  exact (hs.2.2.2 _ rfl).2

theorem held_none {source : ChunkSource} (hs : R.holds (some f) s) :
    Held R f h (some f) (none, source) s :=
  ⟨⟨f.held, rfl, hs⟩, nofun⟩

theorem sat_fetchFromStorage (hR : R.Allows C H handler info) (hf : f.info = info)
    (hs : R.holds (some f) s) :
    (fetchFromStorage H fuel handler f.info f.obj f.chunkIndex).Sat C (Held R f) h (some f) s := by
  unfold fetchFromStorage
  split
  · exact held_none hs
  apply Sat.bind
  apply sat_ask ((hR.holds _ s).mpr hs)
  intro answer s₀ hs₀ hadmits
  replace hs₀ := (hR.holds _ s₀).mp hs₀
  cases answer with
  | none => exact held_none hs₀
  | some data =>
      obtain ⟨horigin, hchunk⟩ := hR.served f h s₀ data hf hs₀ hadmits
      have hs₁ := holds_hold hs₀ rfl hchunk
      apply Sat.bind
      change Sat C _ _ _ (some { f with held := some ⟨f.chunkIndex, data, .storage⟩ }) s₀
      have hkeep : ∀ h' s', R.holds
          (some { f with held := some ⟨f.chunkIndex, data, .storage⟩ }) s' →
          (announceLocalChunk handler (chunkIdOf handler f.info f.chunkIndex) >>= fun _ =>
            pure (some data, ChunkSource.storage)).Sat C (Held R f) h'
              (some { f with held := some ⟨f.chunkIndex, data, .storage⟩ }) s' := by
        intro h' s' hs'
        apply Sat.bind
        apply hR.sat_announceLocalChunk hs'
        exact fun h'' s'' hs'' => held_some hs''
      apply Sat.bind
      unfold keepFromStorage
      split
      · apply Sat.bind
        apply hR.sat_cacheChunk hs₁
        · intro h₂ s₂ hs₂
          exact hR.sat_recordHash (f := { f with held := some ⟨f.chunkIndex, data, .storage⟩ })
            hf rfl horigin hs₂ hkeep
        · intro s₂ s₃ hs₂ hadmits hstores
          exact hR.storesChunk _ _ s₂ s₃ _ hf rfl hs₂ hadmits hstores
      · exact hkeep _ s₀ hs₁

theorem sat_fetchChunk (hR : R.Allows C H handler info) (hf : f.info = info)
    (hs : R.holds (some f) s) :
    (fetchChunk H fuel handler f.info f.obj f.chunkIndex).Sat C (Held R f) h (some f) s := by
  apply Sat.bind
  apply hR.sat_cachedChunk hs
  intro h₁ s₀ cached s₁ hs₀ hcopy hquiet
  cases cached with
  | some data =>
      have hchunk := hR.cached f s₀ data hf hs₀ (hcopy data rfl)
      have hnow := hR.quiet _ s₀ s₁ (holds_hold hs₀ rfl hchunk) hquiet
      refine ⟨⟨f.held, rfl, hR.quiet _ s₀ s₁ hs₀ hquiet⟩, fun d hd => ?_⟩
      cases hd
      exact (hnow.2.2.2 _ rfl).2
  | none =>
      apply Sat.bind
      apply (hR.chunks f h₁ s₁ hf (hR.quiet _ s₀ s₁ hs₀ hquiet)).mono
      rintro h₂ frame₂ data s₂ ⟨rfl, hs₂, hdata⟩
      cases data with
      | none => exact hR.sat_fetchFromStorage hf hs₂
      | some data =>
          have hs₃ := holds_hold hs₂ rfl (hdata data rfl)
          apply Sat.bind
          change Sat C _ _ _ (some { f with held := some ⟨f.chunkIndex, data, .p2p⟩ }) s₂
          apply Sat.bind
          apply hR.sat_cacheChunk hs₃
          · intro h₄ s₄ hs₄
            apply Sat.bind
            apply hR.sat_announceLocalChunk hs₄
            exact fun h₅ s₅ hs₅ => held_some hs₅
          · intro s₄ s₅ hs₄ hadmits hstores
            exact hR.storesChunk _ _ s₄ s₅ _ hf rfl hs₄ hadmits hstores

/-! ### The loop of a request -/

theorem sat_assembleChunks (hR : R.Allows C H handler info) {obj : ObjectInfo}
    (hobj : R.object info obj) (range : ByteRange) {rounds idx : Nat} {a : Assembly}
    {frame : nodeSignature.Frame} (hs : R.shared s)
    (ha : ∀ chunk ∈ a.fetched, chunk.index < idx ∧ R.chunk s info chunk) :
    (assembleChunks handler.chunkSize range
      (fun idx a => reveal (S := nodeSignature) (some ⟨info, obj, idx, a, none⟩))
      (fetchChunk H fuel handler info obj) rounds idx a).Sat C
      (fun _ _ result s' => R.shared s' ∧
        ∀ a', result = some a' → ∀ chunk ∈ a'.fetched, R.chunk s' info chunk) h frame s := by
  induction rounds generalizing idx a h frame s with
  | zero =>
      refine ⟨hs, ?_⟩
      intro a' ha'
      cases ha'
      exact fun chunk hchunk => (ha chunk hchunk).2
  | succ rounds ih =>
      unfold assembleChunks
      apply Sat.bind
      change Sat C _ _ h (some ⟨info, obj, idx, a, none⟩) s
      apply Sat.bind
      apply (hR.sat_fetchChunk (f := ⟨info, obj, idx, a, none⟩) rfl ⟨hs, hobj, ha, nofun⟩).mono
      rintro h' frame' ⟨data, source⟩ s' ⟨⟨held, rfl, hs', -, ha', -⟩, hchunk⟩
      cases data with
      | none => exact ⟨hs', nofun⟩
      | some data =>
          apply ih hs'
          intro chunk hmem
          rcases List.mem_append.mp hmem with hold | hnew
          · exact ⟨Nat.lt_succ_of_lt (ha' chunk hold).1, (ha' chunk hold).2⟩
          · rw [List.mem_singleton.mp hnew]
            exact ⟨Nat.lt_succ_self idx, hchunk data rfl⟩

end Allows

def RequestPost (R : RequestInvariant) (request : HttpRequest) (handled : Handled) (s : Node) :
    Prop :=
  R.shared s ∧ ∀ info, parseCacheKey request = some info →
    ∀ chunk ∈ handled.fetched, R.chunk s info chunk

variable {R : RequestInvariant} {C : Contract nodeSignature} {H : Sha256} {fuel : Nat}
  {handler : RequestHandler} {info : CacheKeyInfo} {h : List (Event nodeSignature)} {s : Node}

theorem Allows.sat_serveObject (hR : R.Allows C H handler info) {obj : ObjectInfo}
    (hobj : R.object info obj) {request : HttpRequest} (hinfo : parseCacheKey request = some info)
    {frame : nodeSignature.Frame} (hs : R.shared s) :
    (serveObject handler.chunkSize (fun f => reveal (S := nodeSignature) (some f))
      (fetchChunk H fuel handler) request info obj).Sat C
      (fun _ _ handled s' => R.RequestPost request handled s') h frame s := by
  simp only [serveObject]
  split
  · exact ⟨hs, nofun⟩
  split
  · exact ⟨hs, nofun⟩
  apply Sat.bind
  apply (hR.sat_assembleChunks hobj _ hs fun chunk hchunk => absurd hchunk List.not_mem_nil).mono
  rintro h' frame' assembled s' ⟨hs', hassembled⟩
  cases assembled with
  | none => exact ⟨hs', nofun⟩
  | some a =>
      refine ⟨hs', ?_⟩
      intro info' hinfo'
      rw [hinfo] at hinfo'
      cases hinfo'
      exact hassembled a rfl

theorem sat_handleRequest {request : HttpRequest}
    (hR : ∀ info, parseCacheKey request = some info → R.Allows C H handler info)
    (hs : R.shared s) :
    (handleRequest H fuel handler request).Sat C
      (fun _ _ handled s' => R.RequestPost request handled s') h none s := by
  unfold handleRequest
  simp only [handleRequestWith]
  split
  · exact ⟨hs, nofun⟩
  cases hinfo : parseCacheKey request with
  | none => exact ⟨hs, nofun⟩
  | some info =>
      simp only
      split
      · exact ⟨hs, nofun⟩
      apply Sat.bind
      apply ((hR info hinfo).sat_getObjectInfo hs).mono
      rintro h' frame' obj s' ⟨hs', hobj⟩
      cases obj with
      | none => exact ⟨hs', nofun⟩
      | some obj =>
          simp only
          split
          · exact ⟨hs', nofun⟩
          · exact (hR info hinfo).sat_serveObject (hobj obj rfl) hinfo hs'

theorem sat_entry_request {request : HttpRequest}
    {post : List (Event nodeSignature) → nodeSignature.Frame → JobResult → Node → Prop}
    (hR : ∀ info, parseCacheKey request = some info → R.Allows C H handler info)
    (hs : R.shared s)
    (hpost : ∀ h' frame handled s', R.RequestPost request handled s' →
      post h' frame (.response handled) s') :
    ((nodeProgram H fuel handler).entry (.request request)).Sat C post h none s := by
  apply Sat.bind
  apply (sat_handleRequest hR hs).mono
  intro h' frame handled s' hhandled
  exact hpost h' frame handled s' hhandled

end RequestInvariant

end ElioP2P.Proxy
