import ElioP2P.Proxy.Proofs.HashList

/-!
# Anchors that are not lost

Two writers store the `#meta` chunk of an object.  `fetch_chunk` reads it, adds
a hash and stores it again in one section.  `get_object_info` stores what a HEAD
request has brought, without looking at what is there by then.  So a recorded
hash is kept as long as no HEAD answer comes in after it, and the memory cache
takes the line that the hash was added to.
-/

namespace ElioP2P.Proxy

open ElioP2P.Library ElioP2P.Library.Coroutine ElioP2P.Cache ElioP2P.Cache.ChunkManager

/-! ## Words of a line -/

def metaWords (line : Bytes) : List Bytes :=
  ((extractUInt64 line).map fun (_, rest) => extractWords rest).getD []

theorem extractWords_flatMap_space (front : Bytes) (words : List Bytes) :
    extractWords (front ++ words.flatMap (ascii " " ++ ·)) =
      extractWords front ++ words.flatMap extractWords := by
  induction words generalizing front with
  | nil => simp
  | cons word words ih =>
      rw [List.flatMap_cons, List.flatMap_cons, ← List.append_assoc]
      change extractWords ((front ++ 32 :: word) ++ words.flatMap (ascii " " ++ ·)) = _
      rw [ih, extractWords_append (by decide), List.append_assoc]

theorem metaWords_serializeMeta {obj : ObjectInfo} (hsize : obj.size < 2 ^ 64) :
    metaWords (serializeMeta obj) =
      extractWords obj.etag ++ obj.chunkHashes.flatMap extractWords := by
  rw [metaWords, extractUInt64_serializeMeta hsize, Option.map_some, Option.getD_some]
  simp only
  rw [extractWords_space (by decide), extractWords_flatMap_space]

theorem parseMeta_isSome {obj : ObjectInfo} (hsize : obj.size < 2 ^ 64) :
    (parseMeta (serializeMeta obj)).isSome = true := by
  rw [parseMeta, extractUInt64_serializeMeta hsize]
  rfl

theorem mem_of_parseMeta {line word : Bytes} {obj : ObjectInfo} (h : parseMeta line = some obj)
    (hword : word ∈ metaWords line) : word = obj.etag ∨ word ∈ obj.chunkHashes := by
  rw [parseMeta, Option.map_eq_some_iff] at h
  obtain ⟨⟨size, rest⟩, hrest, hobj⟩ := h
  rw [metaWords, hrest, Option.map_some, Option.getD_some] at hword
  simp only at hword hobj
  cases hwords : extractWords rest with
  | nil =>
      rw [hwords] at hword
      cases hword
  | cons etag hashes =>
      rw [hwords] at hword hobj
      rw [← hobj]
      exact List.mem_cons.mp hword

theorem size_of_parseMeta {line : Bytes} {obj : ObjectInfo} (h : parseMeta line = some obj) :
    obj.size < 2 ^ 64 := by
  rw [parseMeta, Option.map_eq_some_iff] at h
  obtain ⟨⟨size, rest⟩, hrest, hobj⟩ := h
  have hsize : size < 2 ^ 64 := by
    simp only [extractUInt64, unsignedPrefix, Option.ite_none_left_eq_some, Option.some.injEq,
      Prod.mk.injEq, Bool.or_eq_true, decide_eq_true_eq, not_or, Nat.not_le] at hrest
    obtain ⟨⟨-, hvalue⟩, hsize, -⟩ := hrest
    rw [← hsize]
    split
    · exact Nat.mod_lt _ (by decide)
    · exact hvalue
  simp only at hobj
  rw [← hobj]
  split
  · exact hsize
  · exact hsize

theorem mem_extractWords_self {word : Bytes} (hword : IsWord word) : word ∈ extractWords word := by
  rw [extractWords_word hword.2 hword.1]
  exact List.mem_singleton.mpr rfl

/-- Entering a hash into a vacant place removes no word. -/
theorem mem_enteredLine {base : ObjectInfo} {chunkIndex : Nat} {hash word : Bytes}
    (hsize : base.size < 2 ^ 64) (hword : IsWord word)
    (hvacant : (resizeHashes base.chunkHashes chunkIndex).getD chunkIndex [] = [])
    (hmem : word = base.etag ∨ word ∈ base.chunkHashes ∨ word = hash) :
    word ∈ metaWords (enteredLine base chunkIndex hash) := by
  have hline := @metaWords_serializeMeta
    { base with chunkHashes := (resizeHashes base.chunkHashes chunkIndex).set chunkIndex hash }
      hsize
  rw [enteredLine, hline, List.mem_append, List.mem_flatMap]
  rcases hmem with rfl | hold | rfl
  · exact Or.inl (mem_extractWords_self hword)
  · refine Or.inr ⟨word, ?_, mem_extractWords_self hword⟩
    obtain ⟨j, hj⟩ := List.mem_iff_getElem?.mp
      (List.mem_append_left (List.replicate (chunkIndex + 1 - base.chunkHashes.length) []) hold)
    change (resizeHashes base.chunkHashes chunkIndex)[j]? = some word at hj
    have hne : chunkIndex ≠ j := by
      rintro rfl
      rw [List.getD_eq_getElem?_getD, hj, Option.getD_some] at hvacant
      exact hword.1 hvacant
    refine List.mem_iff_getElem?.mpr ⟨j, ?_⟩
    rw [List.getElem?_set_ne hne, hj]
  · refine Or.inr ⟨word, ?_, mem_extractWords_self hword⟩
    apply List.mem_set
    rw [resizeHashes, List.length_append, List.length_replicate]
    omega

/-! ## What the steps of a run have to meet -/

def SizesFit (key : Bytes) : Action nodeSignature → Prop
  | .start _ => True
  | .resume _ reply =>
      ∀ bucket objectKey (head : ObjectMetadata), bucket ++ ascii "/" ++ objectKey = key →
        (reply (.headObject bucket objectKey) : Option ObjectMetadata) = some head →
          head.size < 2 ^ 64

/-- A `#meta` chunk that is not the result of a recording is stored before any hash of
the object has been recorded. -/
def StoresFirst (key : Bytes) (s : Node) : Access → Prop
  | .store id _ => id = metaKey key → ∀ anchor ∈ s.anchors, anchor.fullObjectKey ≠ key
  | .load _ | .record _ _ _ _ | .announce _ => True

def HasSpace (key : Bytes) (s : Node) : Access → Prop
  | .record fullObjectKey obj chunkIndex _ => fullObjectKey = key →
      ∀ base ∈ candidates s fullObjectKey obj,
        grownLength base chunkIndex ≤ s.cache.memoryCache.config.maxCapacity
  | .load _ | .store _ _ | .announce _ => True

/-- Once a hash has been recorded, the line is in memory when the next one is. -/
def Remembers (key : Bytes) (s : Node) : Access → Prop
  | .record fullObjectKey _ _ _ => fullObjectKey = key →
      (∃ anchor ∈ s.anchors, anchor.fullObjectKey = key) →
        (s.cache.memoryCache.dataOf (metaKey key)).isSome = true
  | .load _ | .store _ _ | .announce _ => True

instance (key : Bytes) (s : Node) : ∀ access, Decidable (StoresFirst key s access)
  | .store id _ => inferInstanceAs (Decidable (id = metaKey key →
      ∀ anchor ∈ s.anchors, anchor.fullObjectKey ≠ key))
  | .load _ | .record _ _ _ _ | .announce _ => inferInstanceAs (Decidable True)

instance (key : Bytes) (s : Node) : ∀ access, Decidable (HasSpace key s access)
  | .record fullObjectKey obj chunkIndex _ => inferInstanceAs (Decidable (fullObjectKey = key →
      ∀ base ∈ candidates s fullObjectKey obj,
        grownLength base chunkIndex ≤ s.cache.memoryCache.config.maxCapacity))
  | .load _ | .store _ _ | .announce _ => inferInstanceAs (Decidable True)

instance (key : Bytes) (s : Node) : ∀ access, Decidable (Remembers key s access)
  | .record fullObjectKey _ _ _ => inferInstanceAs (Decidable (fullObjectKey = key →
      (∃ anchor ∈ s.anchors, anchor.fullObjectKey = key) →
        (s.cache.memoryCache.dataOf (metaKey key)).isSome = true))
  | .load _ | .store _ _ | .announce _ => inferInstanceAs (Decidable True)

def HeadFirst (key : Bytes) : System nodeSignature → Action nodeSignature → Prop :=
  AtTurn (StoresFirst key)

def MetaFits (key : Bytes) : System nodeSignature → Action nodeSignature → Prop :=
  AtTurn (HasSpace key)

def MetaStays (key : Bytes) : System nodeSignature → Action nodeSignature → Prop :=
  AtTurn (Remembers key)

instance (key : Bytes) (sys : System nodeSignature) (action : Action nodeSignature) :
    Decidable (HeadFirst key sys action) :=
  inferInstanceAs (Decidable (AtTurn _ sys action))

instance (key : Bytes) (sys : System nodeSignature) (action : Action nodeSignature) :
    Decidable (MetaFits key sys action) :=
  inferInstanceAs (Decidable (AtTurn _ sys action))

instance (key : Bytes) (sys : System nodeSignature) (action : Action nodeSignature) :
    Decidable (MetaStays key sys action) :=
  inferInstanceAs (Decidable (AtTurn _ sys action))

/-! ## The contract -/

/-- Every copy of the `#meta` chunk has every hash that was recorded for the
object. -/
def NoLostAnchor (key : Bytes) (s : Node) : Prop :=
  ∀ anchor ∈ s.anchors, anchor.fullObjectKey = key →
    ∀ line, Copy s.cache (metaKey key) line → anchor.hash ∈ metaWords line

section Contract

variable {H : Sha256} {fuel : Nat} {handler : RequestHandler} {key : Bytes}

structure Readable (key : Bytes) (s : Node) : Prop where
  faultless : s.cache.fileSystem.Faultless
  lines : ∀ line, Copy s.cache (metaKey key) line → (parseMeta line).isSome = true
  words : ∀ anchor ∈ s.anchors, anchor.fullObjectKey = key → IsWord anchor.hash

def keptInvariant (key : Bytes) : RequestInvariant where
  shared s := Readable key s ∧ NoLostAnchor key s
  object info obj := info.fullObjectKey = key → obj.size < 2 ^ 64
  chunk _ _ _ := True
  line info line := info.fullObjectKey = key → (parseMeta line).isSome = true
  origin _ _ _ := True

def keptSpec (key : Bytes) : Spec nodeSignature where
  holds := (keptInvariant key).holds
  admits _ _ _ s w reply :=
    match w, reply with
    | .external (.headObject bucket objectKey), answer =>
        ∀ head : ObjectMetadata, bucket ++ ascii "/" ++ objectKey = key →
          (answer : Option ObjectMetadata) = some head → head.size < 2 ^ 64
    | .external (.lock access), _ =>
        StoresFirst key s access ∧ HasSpace key s access ∧ Remembers key s access
    | _, _ => True
  changes _ _ _ := True
  allowed := OwnFile key
  post _ _ _ _ s := (keptInvariant key).shared s
  joined _ _ := True

theorem kept_quiet {s s' : Node} (hs : (keptInvariant key).shared s) (hquiet : Quiet s s') :
    (keptInvariant key).shared s' := by
  obtain ⟨hreadable, hkept⟩ := hs
  refine ⟨⟨hquiet.setup.faultless hreadable.faultless, ?_, ?_⟩, ?_⟩
  · exact fun line hline => hreadable.lines line (hquiet.copies _ line hline)
  · rw [hquiet.anchors]
    exact hreadable.words
  · intro anchor hanchor hkey line hline
    rw [hquiet.anchors] at hanchor
    exact hkept anchor hanchor hkey line (hquiet.copies _ line hline)

theorem kept_stores {s s' : Node} {id data : Bytes} (hs : (keptInvariant key).shared s)
    (hstores : Stores id data s s')
    (hdata : SameFile (metaKey key) id → (parseMeta data).isSome = true ∧
      ∀ anchor ∈ s.anchors, anchor.fullObjectKey ≠ key) :
    (keptInvariant key).shared s' := by
  obtain ⟨hreadable, hkept⟩ := hs
  refine ⟨⟨hstores.setup.faultless hreadable.faultless, ?_, ?_⟩, ?_⟩
  · intro line hline
    rcases hstores.copies _ line hline with ⟨hfile, rfl⟩ | hold
    · exact (hdata hfile).1
    · exact hreadable.lines line hold
  · rw [hstores.anchors]
    exact hreadable.words
  · intro anchor hanchor hkey line hline
    rw [hstores.anchors] at hanchor
    rcases hstores.copies _ line hline with ⟨hfile, rfl⟩ | hold
    · exact absurd hkey ((hdata hfile).2 anchor hanchor)
    · exact hkept anchor hanchor hkey line hold

section Requests

variable {request : HttpRequest} {info : CacheKeyInfo} {s : Node}

/-- The line that a hash is entered into has all that were recorded before. -/
theorem kept_candidates {obj base : ObjectInfo} (hs : (keptInvariant key).shared s)
    (hobj : obj.size < 2 ^ 64)
    (hstays : (∃ anchor ∈ s.anchors, anchor.fullObjectKey = key) →
      (s.cache.memoryCache.dataOf (metaKey key)).isSome = true)
    (hbase : base ∈ candidates s key obj) :
    base.size < 2 ^ 64 ∧ ∀ anchor ∈ s.anchors, anchor.fullObjectKey = key →
      anchor.hash = base.etag ∨ anchor.hash ∈ base.chunkHashes := by
  unfold candidates at hbase
  cases hmemory : s.cache.memoryCache.dataOf (metaKey key) with
  | some line =>
      have hcopy : Copy s.cache (metaKey key) line := Or.inl hmemory
      obtain ⟨parsed, hparsed⟩ := Option.isSome_iff_exists.mp (hs.1.lines line hcopy)
      rw [hmemory, Option.elim_some, hparsed, Option.getD_some, List.mem_singleton] at hbase
      rw [hbase]
      refine ⟨size_of_parseMeta hparsed, fun anchor hanchor hkey => ?_⟩
      exact mem_of_parseMeta hparsed (hs.2 anchor hanchor hkey line hcopy)
  | none =>
      rw [hmemory] at hstays hbase
      refine ⟨?_, fun anchor hanchor hkey => ?_⟩
      · rcases List.mem_cons.mp hbase with rfl | hdisk
        · exact hobj
        · obtain ⟨line, -, hparsed⟩ := Option.bind_eq_some_iff.mp (Option.mem_toList.mp hdisk)
          exact size_of_parseMeta hparsed
      · cases hstays ⟨anchor, hanchor, hkey⟩

theorem kept_enters {s s' : Node} {base : ObjectInfo} {chunkIndex : Nat} {data : Bytes}
    (hs : (keptInvariant key).shared s) (hkey : info.fullObjectKey = key)
    (hsize : base.size < 2 ^ 64)
    (hbase : ∀ anchor ∈ s.anchors, anchor.fullObjectKey = key →
      anchor.hash = base.etag ∨ anchor.hash ∈ base.chunkHashes)
    (hfits : grownLength base chunkIndex ≤ s.cache.memoryCache.config.maxCapacity)
    (henters : Enters info base chunkIndex (H.hex data) s s') : (keptInvariant key).shared s' := by
  obtain ⟨hreadable, -⟩ := hs
  have honly : ∀ line, Copy s'.cache (metaKey key) line →
      line = enteredLine base chunkIndex (H.hex data) := by
    rw [← hkey]
    exact henters.only (by rw [length_enteredLine (H.length_hex data) henters.vacant]; exact hfits)
  refine ⟨⟨henters.setup.faultless hreadable.faultless, ?_, ?_⟩, ?_⟩
  · intro line hline
    rw [honly line hline, enteredLine]
    exact parseMeta_isSome hsize
  · intro anchor hanchor hanchorKey
    rw [henters.anchors, List.mem_append, List.mem_singleton] at hanchor
    rcases hanchor with hold | rfl
    · exact hreadable.words anchor hold hanchorKey
    · exact isWord_hex data
  · intro anchor hanchor hanchorKey line hline
    rw [honly line hline]
    rw [henters.anchors, List.mem_append, List.mem_singleton] at hanchor
    rcases hanchor with hold | rfl
    · refine mem_enteredLine hsize (hreadable.words anchor hold hanchorKey) henters.vacant ?_
      exact (hbase anchor hold hanchorKey).imp_right Or.inl
    · exact mem_enteredLine hsize (isWord_hex data) henters.vacant (Or.inr (Or.inr rfl))

theorem kept_entersOther {s s' : Node} {base : ObjectInfo} {chunkIndex : Nat} {hash : Bytes}
    (hs : (keptInvariant key).shared s) (hkey : info.fullObjectKey ≠ key)
    (hfile : ¬ SameFile (metaKey info.fullObjectKey) (metaKey key))
    (henters : Enters info base chunkIndex hash s s') : (keptInvariant key).shared s' := by
  obtain ⟨hreadable, hkept⟩ := hs
  have hold : ∀ line, Copy s'.cache (metaKey key) line → Copy s.cache (metaKey key) line := by
    intro line hline
    rcases henters.copies _ line hline with hold | ⟨hsame, -⟩
    · exact hold
    · exact absurd hsame.symm hfile
  have hanchors : ∀ anchor ∈ s'.anchors, anchor.fullObjectKey = key → anchor ∈ s.anchors := by
    intro anchor hanchor hanchorKey
    rw [henters.anchors, List.mem_append, List.mem_singleton] at hanchor
    rcases hanchor with hold | rfl
    · exact hold
    · exact absurd hanchorKey hkey
  refine ⟨⟨henters.setup.faultless hreadable.faultless, ?_, ?_⟩, ?_⟩
  · exact fun line hline => hreadable.lines line (hold line hline)
  · exact fun anchor hanchor hanchorKey =>
      hreadable.words anchor (hanchors anchor hanchor hanchorKey) hanchorKey
  · exact fun anchor hanchor hanchorKey line hline =>
      hkept anchor (hanchors anchor hanchor hanchorKey) hanchorKey line (hold line hline)

theorem kept_frame {s s' : Node} {f : RequestFrame} (hs : (keptInvariant key).holds (some f) s)
    (hs' : (keptInvariant key).shared s') : (keptInvariant key).holds (some f) s' :=
  ⟨hs', hs.2⟩

theorem kept_allows
    (hp2p : (handler.enableP2pFallback && handler.hasTransferManager) = false)
    (hown : OwnFile key (.request request)) (hinfo : parseCacheKey request = some info) :
    (keptInvariant key).Allows ((keptSpec key).contract (.request request)) H handler info where
  holds _ _ := Iff.rfl
  spares _ _ _ _ := trivial
  enters _ _ _ _ _ _ := trivial
  faultless s hs := hs.1.faultless
  quiet frame s s' hs hquiet := by
    cases frame with
    | none => exact kept_quiet hs hquiet
    | some f => exact kept_frame hs (kept_quiet hs.1 hquiet)
  parsed s line obj _ _ hobj _ := size_of_parseMeta hobj
  described h s head hs hadmits := by
    have hhead : info.fullObjectKey = key → head.size < 2 ^ 64 := by
      intro hkey
      rw [← fullObjectKey_of_parseCacheKey hinfo] at hkey
      exact hadmits head hkey rfl
    exact ⟨hhead, fun hkey => parseMeta_isSome (hhead hkey)⟩
  lines h s hs := sat_downloadFromPeers_disabled hp2p ⟨rfl, hs, nofun⟩
  storesLine h s s' line hs hadmits hline hstores := by
    apply kept_stores hs hstores
    intro hfile
    have hkey := hown.key_eq hinfo hfile
    exact ⟨hline hkey, hadmits.1 (by rw [hkey])⟩
  cached _ _ _ _ _ _ := trivial
  chunks f h s _ hs := sat_downloadFromPeers_disabled hp2p ⟨rfl, hs, nofun⟩
  served _ _ _ _ _ _ _ := ⟨trivial, trivial⟩
  storesChunk f h s s' chunk _ _ hs _ hstores := by
    apply kept_frame hs
    apply kept_stores hs.1 hstores
    exact fun hfile => absurd hfile (not_sameFile_meta_chunk handler f.info f.chunkIndex key)
  records f h s s' data base hf _ _ hs hadmits hbase henters := by
    apply kept_frame hs
    obtain ⟨-, hspace, hstays⟩ := hadmits
    by_cases hkey : f.info.fullObjectKey = key
    · have hroom := hspace hkey base hbase
      rw [hkey] at hbase
      obtain ⟨hsize, hall⟩ := kept_candidates hs.1 (hs.2.1 hkey) (hstays hkey) hbase
      exact kept_enters hs.1 hkey hsize hall hroom henters
    · rw [hf] at hkey henters
      exact kept_entersOther hs.1 hkey (hown info hinfo hkey) henters

end Requests

/-! ## Every run -/

theorem keptSpec_valid
    (hp2p : (handler.enableP2pFallback && handler.hasTransferManager) = false) :
    (keptSpec key).Valid (nodeProgram H fuel handler) where
  entry job s hown hs := by
    cases job with
    | request request =>
        exact RequestInvariant.sat_entry_request
          (fun info hinfo => kept_allows hp2p hown hinfo) hs fun _ _ _ _ hpost => hpost.1
    | _ => exact hown.elim
  changes_refl _ _ := trivial
  changes_trans _ _ _ _ _ _ := trivial
  shared_of_holds _ _ hs := RequestInvariant.shared_of_holds hs
  shared_of_post _ _ _ _ _ hpost := hpost
  joined_of_post _ _ _ _ _ _ := trivial

theorem stepMeets_kept {sys : System nodeSignature} {action : Action nodeSignature} {s' : Node}
    (hactions : SizesFit key action ∧ OnlyRequests key action)
    (hstays : MetaStays key sys action) (hhead : HeadFirst key sys action)
    (hfits : MetaFits key sys action) :
    StepMeets (keptSpec key) (nodeProgram H fuel handler) sys action s' where
  start job hstart := by
    subst hstart
    exact hactions.2
  admits id reply task w next hresume htask hrest _ r hr := by
    subst hresume
    cases w with
    | spawn job => trivial
    | join id job => trivial
    | external e =>
        cases hr
        cases e with
        | headObject bucket objectKey =>
            exact fun head hkey hanswer => hactions.1 bucket objectKey head hkey hanswer
        | lock access =>
            exact ⟨hhead.holds htask hrest, hfits.holds htask hrest, hstays.holds htask hrest⟩
        | _ => trivial
  stable id reply resumed h other task _ _ _ _ _ _ _ hholds hblank := by
    cases hframe : task.frame with
    | none => exact hblank
    | some f =>
        rw [hframe] at hholds
        exact kept_frame hholds hblank

/-- In every run of requests without peers in which the `#meta` chunk stays in
the cache: if what a HEAD request has brought is stored only while no hash of the
object has been recorded, and the memory cache has room for each line with a new
hash, then in every state reached the `#meta` chunk has every hash that was
recorded. -/
theorem noLostAnchor_of_run
    (hp2p : (handler.enableP2pFallback && handler.hasTransferManager) = false) {node : Node}
    (hreadable : Readable key node) (hkept : NoLostAnchor key node)
    {actions : List (Action nodeSignature)} {sys : System nodeSignature}
    (hactions : ∀ action ∈ actions, SizesFit key action ∧ OnlyRequests key action)
    (hstays : EveryStep (nodeProgram H fuel handler).step (MetaStays key) (.initial node) actions)
    (hmeets : EveryStep (nodeProgram H fuel handler).step
      (fun sys action => HeadFirst key sys action ∧ MetaFits key sys action)
      (.initial node) actions)
    (hrun : runSteps (nodeProgram H fuel handler).step (.initial node) actions = some sys) :
    NoLostAnchor key sys.shared := by
  have hinitial : (System.initial (S := nodeSignature) node).Sound (keptSpec key)
      (nodeProgram H fuel handler) :=
    System.Sound.initial ⟨hreadable, hkept⟩
  have hsound := runSteps_invariant
    (fun s action s' hs hstep hnext => (hs.step (keptSpec_valid hp2p) hnext
      (stepMeets_kept hstep.1 hstep.2.1 hstep.2.2.1 hstep.2.2.2)).1)
    hinitial ((EveryStep.of_forall hactions).and (hstays.and hmeets)) hrun
  exact hsound.shared.2

end Contract

/-! ## Two runs -/

theorem readable_sampleNode (key : Bytes) : Readable key P2P.sampleNode where
  faultless := FileSystem.faultless_empty
  lines line hline := absurd hline (not_copy_sampleNode _ line)
  words anchor hanchor := by cases hanchor

theorem noLostAnchor_sampleNode (key : Bytes) : NoLostAnchor key P2P.sampleNode :=
  fun anchor hanchor => by cases hanchor

def twoChunks : (e : External) → e.Answer :=
  P2P.answers [] (some ⟨2 ^ 24 + 1, ascii "e"⟩) fun start _ =>
    if start = 0 then some [2] else some [1]

def goesOn (rounds id : Nat) (reply : (e : External) → e.Answer) : List (Action nodeSignature) :=
  List.replicate rounds (.resume id reply)

/-- Two GETs of an object that is not in the cache, the second one for its last byte.
Both store what HEAD has brought.  Then the first one gets chunk 0 from the origin and
records its hash, and after that the second one gets chunk 1 and records its hash. -/
def twoGets : List (Action nodeSignature) :=
  [.start (.request wholeRequest), .start (.request tailRequest)] ++
    goesOn 2 0 twoChunks ++ goesOn 2 1 twoChunks ++ goesOn 2 0 twoChunks ++ goesOn 2 1 twoChunks ++
    goesOn 5 0 twoChunks ++ goesOn 5 1 twoChunks

theorem meets_twoGets : ∀ action ∈ twoGets,
    SizesFit (ascii "b/k") action ∧ OnlyRequests (ascii "b/k") action := by
  have hown : ∀ request, (∀ info ∈ parseCacheKey request, info.fullObjectKey = ascii "b/k") →
      OwnFile (ascii "b/k") (.request request) :=
    fun _ hrequest info hinfo hne => absurd (hrequest info hinfo) hne
  have hreply : ∀ id, SizesFit (ascii "b/k") (.resume id twoChunks) := by
    rintro id bucket objectKey head _ hhead
    cases hhead
    decide
  intro action haction
  simp only [twoGets, goesOn, List.mem_append, List.mem_cons, List.not_mem_nil, or_false,
    List.mem_replicate, or_assoc] at haction
  rcases haction with rfl | rfl | ⟨-, rfl⟩ | ⟨-, rfl⟩ | ⟨-, rfl⟩ | ⟨-, rfl⟩ | ⟨-, rfl⟩ | ⟨-, rfl⟩
  · exact ⟨trivial, hown _ (by decide)⟩
  · exact ⟨trivial, hown _ (by decide)⟩
  all_goals exact ⟨hreply _, trivial⟩

/-- Two requests that run side by side record a hash each, and both are kept. -/
theorem noLostAnchor_of_run_twoGets :
    ∃ sys, runSteps (nodeProgram sampleSha256 0 noPeers).step (.initial P2P.sampleNode) twoGets =
        some sys ∧
      sys.shared.anchors = [⟨ascii "b/k", 0, sampleSha256.hex [2]⟩,
        ⟨ascii "b/k", 1, sampleSha256.hex [1]⟩] ∧
      readBack sys (ascii "b/k") = some [sampleSha256.hex [2], sampleSha256.hex [1]] ∧
      NoLostAnchor (ascii "b/k") sys.shared := by
  have hanchors : ((runSteps (nodeProgram sampleSha256 0 noPeers).step (.initial P2P.sampleNode)
      twoGets).any fun sys =>
        decide (sys.shared.anchors = [⟨ascii "b/k", 0, sampleSha256.hex [2]⟩,
          ⟨ascii "b/k", 1, sampleSha256.hex [1]⟩]) &&
        decide (readBack sys (ascii "b/k") =
          some [sampleSha256.hex [2], sampleSha256.hex [1]])) = true := by
    decide +kernel
  obtain ⟨sys, hrun, hsys⟩ := (Option.any_eq_true _ _).mp hanchors
  simp only [Bool.and_eq_true, decide_eq_true_eq] at hsys
  exact ⟨sys, hrun, hsys.1, hsys.2, noLostAnchor_of_run rfl (readable_sampleNode _)
    (noLostAnchor_sampleNode _) meets_twoGets (by decide +kernel) (by decide +kernel) hrun⟩

/-- Two GETs of an object that is not in the cache.  Both ask the origin for its
size; the second gets its answer when the first has recorded a hash. -/
def lateHead : List (Action nodeSignature) :=
  [.start (.request wholeRequest), .start (.request wholeRequest)] ++
    goesOn 2 0 (originOf 1 (ascii "e") 0 [1]) ++ goesOn 2 1 (originOf 1 (ascii "e") 0 [1]) ++
    goesOn 7 0 (originOf 1 (ascii "e") 0 [1]) ++ goesOn 2 1 (originOf 1 (ascii "e") 0 [1])

/-- The late answer is stored over the recorded hash. -/
theorem lostAnchor_lateHead :
    (∀ action ∈ lateHead, OriginKeeps [1] (ascii "b/k") action ∧
      OnlyRequests (ascii "b/k") action) ∧
    EveryStep (nodeProgram sampleSha256 0 noPeers).step
      (MetaStays (ascii "b/k")) (.initial P2P.sampleNode) lateHead ∧
    ∃ sys, runSteps (nodeProgram sampleSha256 0 noPeers).step (.initial P2P.sampleNode) lateHead =
        some sys ∧ ¬ NoLostAnchor (ascii "b/k") sys.shared := by
  refine ⟨?_, by decide +kernel, ?_⟩
  · have hstart : OwnFile (ascii "b/k") (.request wholeRequest) := by
      intro info hinfo hne
      exact absurd ((by decide : ∀ info ∈ parseCacheKey wholeRequest,
        info.fullObjectKey = ascii "b/k") info hinfo) hne
    have hreply : ∀ id, OriginKeeps [1] (ascii "b/k")
        (.resume id (originOf 1 (ascii "e") 0 [1])) := fun id =>
      originKeeps_originOf (ascii "b/k") id rfl (by decide)
    intro action haction
    simp only [lateHead, goesOn, List.mem_append, List.mem_cons, List.not_mem_nil, or_false,
      List.mem_replicate, or_assoc] at haction
    rcases haction with rfl | rfl | ⟨-, rfl⟩ | ⟨-, rfl⟩ | ⟨-, rfl⟩ | ⟨-, rfl⟩
    · exact ⟨trivial, hstart⟩
    · exact ⟨trivial, hstart⟩
    all_goals exact ⟨hreply _, trivial⟩
  · have hlost : ((runSteps (nodeProgram sampleSha256 0 noPeers).step (.initial P2P.sampleNode)
        lateHead).any fun sys =>
          decide (⟨ascii "b/k", 0, sampleSha256.hex [1]⟩ ∈ sys.shared.anchors) &&
            decide (sys.shared.cache.memoryCache.dataOf (metaKey (ascii "b/k")) =
              some (ascii "1 e"))) = true := by
      decide +kernel
    obtain ⟨sys, hrun, hsys⟩ := (Option.any_eq_true _ _).mp hlost
    simp only [Bool.and_eq_true, decide_eq_true_eq] at hsys
    refine ⟨sys, hrun, fun hkept => ?_⟩
    have hword := hkept _ hsys.1 rfl (ascii "1 e") (Or.inl hsys.2)
    exact absurd hword (by decide +kernel)

end ElioP2P.Proxy
