import ElioP2P.P2P.Proofs.TransferTraffic
import ElioP2P.Proxy.Proofs.OwnSections
import ElioP2P.Proxy.Proofs.Announcements
import ElioP2P.Proxy.Proofs.Assembly
import ElioP2P.Proxy.Proofs.RecordedHash

/-!
# What a node asks of others

Only proxied requests turn to the origin.  A request asks it for the size of its
own object at most once, and then for chunks of this object, each at most once
and in increasing order, that lie inside the object and overlap the range the
client wants.  A connection that a peer has opened makes the node ask nobody.
-/

namespace ElioP2P.Proxy

open ElioP2P.Library ElioP2P.Library.Coroutine ElioP2P.Cache ElioP2P.Cache.ChunkManager
open ElioP2P.P2P

/-! ## Calls of the origin -/

def originCall? : Wait nodeSignature → Option External
  | .external (.headObject bucket key) => some (.headObject bucket key)
  | .external (.getObject bucket key offset length) => some (.getObject bucket key offset length)
  | _ => none

def originCalls (asked : List (Wait nodeSignature)) : List External := asked.filterMap originCall?

def headCall (info : CacheKeyInfo) : External := .headObject info.bucket info.objectKey

def chunkCall (handler : RequestHandler) (info : CacheKeyInfo) (size chunkIndex : Nat) : External :=
  .getObject info.bucket info.objectKey (chunkIndex * handler.chunkSize)
    (min handler.chunkSize (size - chunkIndex * handler.chunkSize))

/-- The origin has been asked for the size of the object at most once, and then
for chunks from `first` up to `next`.  A size that the origin has told is the one
that is used. -/
def HasAsked (handler : RequestHandler) (info : CacheKeyInfo) (size first next : Nat)
    (h : List (Event nodeSignature)) (calls : List External) : Prop :=
  ∃ (heads : List External) (indices : List Nat),
    calls = heads ++ indices.map (chunkCall handler info size) ∧
    (heads = [] ∨ heads = [headCall info]) ∧
    (∀ head, (⟨.headObject info.bucket info.objectKey, some head⟩ : NetExchange) ∈ exchangesOf h →
      size = head.size) ∧
    indices.Pairwise (· < ·) ∧ ∀ i ∈ indices, first ≤ i ∧ i < next

structure Admitted (handler : RequestHandler) (request : HttpRequest) (info : CacheKeyInfo) :
    Prop where
  method : request.method = ascii "GET" ∨ request.method = ascii "HEAD"
  parsed : parseCacheKey request = some info
  allowed : handler.allowedBucket = [] ∨ info.bucket = handler.allowedBucket

/-- The origin calls of an admitted request: no chunks, or those of a GET for an
object that the wanted range lies in. -/
def OriginTraffic (handler : RequestHandler) (request : HttpRequest) (info : CacheKeyInfo)
    (h : List (Event nodeSignature)) (calls : List External) : Prop :=
  (∃ size, HasAsked handler info size 0 0 h calls) ∨
    ∃ size, request.method = ascii "GET" ∧ (requestedRange request size).stop < size ∧
      HasAsked handler info size ((requestedRange request size).start / handler.chunkSize)
        ((requestedRange request size).stop / handler.chunkSize + 1) h calls

section Traffic

variable {handler : RequestHandler} {request : HttpRequest} {info : CacheKeyInfo}
  {size first next next' : Nat} {h : List (Event nodeSignature)} {calls : List External}

theorem originCalls_append (asked asked' : List (Wait nodeSignature)) :
    originCalls (asked ++ asked') = originCalls asked ++ originCalls asked' :=
  List.filterMap_append

theorem originCall?_withPeers {w : Wait nodeSignature} (hw : WithPeers w) :
    originCall? w = none := by
  rcases hw with ⟨peer, hstream | rfl⟩ | ⟨ctx, peer, expectedSha256, rfl | ⟨id, rfl⟩⟩
  · unfold OnStream at hstream
    split at hstream
    · rfl
    · rfl
    · rfl
    · rfl
    · rfl
    · rfl
    · exact hstream.elim
  · rfl
  · rfl
  · rfl

theorem exchangesOf_concat_withPeers {w : Wait nodeSignature} (hw : WithPeers w)
    (reply : w.Reply) {head : ObjectMetadata}
    (hmem : (⟨.headObject info.bucket info.objectKey, some head⟩ : NetExchange) ∈ exchangesOf
      (h ++ [Event.of w reply])) :
    (⟨.headObject info.bucket info.objectKey, some head⟩ : NetExchange) ∈ exchangesOf h := by
  rw [exchangesOf_append, List.mem_append] at hmem
  refine hmem.resolve_right fun hnew => ?_
  have hnone := originCall?_withPeers hw
  cases w with
  | external e =>
      have hexchange : (⟨.headObject info.bucket info.objectKey, some head⟩ : NetExchange) =
        ⟨e, reply⟩ :=
        List.mem_singleton.mp hnew
      cases hexchange
      cases hnone
  | spawn job => cases hnew
  | join id job => cases hnew

namespace HasAsked

theorem of_nothing (handler : RequestHandler) (info : CacheKeyInfo) (size first next : Nat)
    (hnothing : originCalls (h.map Event.wait) = []) :
    HasAsked handler info size first next h (originCalls (h.map Event.wait)) := by
  refine ⟨[], [], by rw [hnothing]; rfl, Or.inl rfl, fun head hmem => ?_,
    List.Pairwise.nil, by simp⟩
  obtain ⟨event, hevent, hexchange⟩ := List.mem_filterMap.mp hmem
  have hcall : headCall info ∈ originCalls (h.map Event.wait) := by
    refine List.mem_filterMap.mpr ⟨event.wait, List.mem_map_of_mem hevent, ?_⟩
    cases event with
    | external exchange =>
        cases hexchange
        rfl
    | spawned id job => cases hexchange
    | joined id job finished => cases hexchange
  rw [hnothing] at hcall
  cases hcall

theorem concat {w : Wait nodeSignature} (hw : WithPeers w) (reply : w.Reply)
    (hasked : HasAsked handler info size first next h (originCalls (h.map Event.wait))) :
    HasAsked handler info size first next (h ++ [.of w reply])
      (originCalls ((h ++ [Event.of w reply]).map Event.wait)) := by
  obtain ⟨heads, indices, hcalls, hheads, htold, hincreasing, hbounds⟩ := hasked
  refine ⟨heads, indices, ?_, hheads, fun head hmem => ?_, hincreasing, hbounds⟩
  · rw [List.map_append, originCalls_append, hcalls, List.map_singleton, Event.wait_of]
    simp [originCalls, originCall?_withPeers hw]
  · exact htold head (exchangesOf_concat_withPeers hw reply hmem)

theorem mono (hasked : HasAsked handler info size first next h calls) (hle : next ≤ next') :
    HasAsked handler info size first next' h calls := by
  obtain ⟨heads, indices, hcalls, hheads, htold, hincreasing, hbounds⟩ := hasked
  refine ⟨heads, indices, hcalls, hheads, htold, hincreasing, fun i hi => ⟨(hbounds i hi).1, ?_⟩⟩
  have hlt := (hbounds i hi).2
  omega

/-- As long as no chunk was asked for, the bounds are open. -/
theorem shift (hasked : HasAsked handler info size first first h calls) (first' : Nat) :
    HasAsked handler info size first' first' h calls := by
  obtain ⟨heads, indices, hcalls, hheads, htold, -, hbounds⟩ := hasked
  have hnone : indices = [] := by
    rw [List.eq_nil_iff_forall_not_mem]
    intro i hi
    have hi' := hbounds i hi
    omega
  subst hnone
  exact ⟨heads, [], hcalls, hheads, htold, List.Pairwise.nil, by simp⟩

theorem chunk (hasked : HasAsked handler info size first next h calls) (hle : first ≤ next) :
    HasAsked handler info size first (next + 1) h
      (calls ++ [chunkCall handler info size next]) := by
  obtain ⟨heads, indices, rfl, hheads, htold, hincreasing, hbounds⟩ := hasked
  refine ⟨heads, indices ++ [next], by simp, hheads, htold, ?_, fun i hi => ?_⟩
  · rw [List.pairwise_append]
    refine ⟨hincreasing, List.pairwise_singleton _ _, fun i hi j hj => ?_⟩
    rw [List.mem_singleton.mp hj]
    exact (hbounds i hi).2
  · rcases List.mem_append.mp hi with hold | hnew
    · have hi' := hbounds i hold
      omega
    · rw [List.mem_singleton.mp hnew]
      omega

theorem answered {answer : Option Bytes}
    (hasked : HasAsked handler info size first next h
      (originCalls (h.map Event.wait) ++ [chunkCall handler info size next'])) :
    HasAsked handler info size first next
      (h ++ [.external (⟨chunkCall handler info size next', answer⟩ : NetExchange)])
      (originCalls ((h ++ [Event.external (⟨chunkCall handler info size next', answer⟩ :
        NetExchange)]).map Event.wait)) := by
  obtain ⟨heads, indices, hcalls, hheads, htold, hincreasing, hbounds⟩ := hasked
  refine ⟨heads, indices, ?_, hheads, fun head hmem => ?_, hincreasing, hbounds⟩
  · rw [List.map_append, originCalls_append, ← hcalls]
    rfl
  · rw [exchangesOf_append, List.mem_append] at hmem
    rcases hmem with hold | hnew
    · exact htold head hold
    · have hexchange := List.mem_singleton.mp hnew
      cases hexchange

end HasAsked

/-! ## What each job may ask -/

def nodeTraffic (handler : RequestHandler) : Discipline nodeSignature where
  invariant _ := True
  changes _ _ := True
  assumes _ _ _ _ _ := True
  permits job h _ w :=
    match job with
    | .request request => ∃ info, Admitted handler request info ∧
        OriginTraffic handler request info h (originCalls (h.map Event.wait ++ [w]))
    | .downloadChunk _ => WithPeers w
    | .downloadFromPeer _ peer _ | .uploadChunk _ _ peer => WithPeer peer w
    | .chunkConnection => OnStream w
    | .cancelTransfer _ | .discovery _ => False
  ends _ _ _ _ := True
  changes_refl _ := trivial
  changes_trans _ _ := trivial
  ends_stable _ _ := trivial
  ends_thrown _ _ _ := trivial

variable {H : Sha256} {fuel : Nat} {s : Node} {α : Type} {W : Wait nodeSignature → Prop}

/-! ### Routines that do not turn to the origin -/

def Whatever (_ _ : Node) : Prop := True

theorem whatever (s : Node) (cache : ChunkManager) (anchors : List Anchor)
    (discovery : NodeDiscovery) :
    Whatever s { s with cache := cache, anchors := anchors, discovery := discovery } := trivial

theorem within_downloadFromPeers (transfer : TransferRequest) :
    (downloadFromPeers H handler transfer).Within WithPeers Whatever s :=
  within_ite (Within.bind (within_downloadChunk (fun _ _ _ => trivial) (fun _ hw => hw) transfer)
    fun _ _ => within_pure _) (within_pure none)

theorem withPeers_lock (access : Access) : WithPeers (.external (.lock access)) :=
  Or.inl ⟨{}, Or.inl trivial⟩

theorem follows_within {J : List (Event nodeSignature) → Prop} {c : Proc α}
    (hadmitted : Admitted handler request info) (hc : c.Within WithPeers Whatever s)
    (htraffic : ∀ h, J h → OriginTraffic handler request info h (originCalls (h.map Event.wait)))
    (hkeeps : ∀ h (w : Wait nodeSignature) (reply : w.Reply), J h → WithPeers w →
      J (h ++ [Event.of w reply])) (hJ : J h) :
    c.Follows (nodeTraffic handler) (.request request) (fun h _ _ => J h) h s := by
  refine (hc.follows (fun _ _ _ => ⟨trivial, fun _ => trivial⟩) (fun h _ w hJ hw => ?_)
    (fun h _ w reply hJ hw _ => hkeeps h w reply hJ hw) hJ trivial).mono fun _ _ _ hpost => hpost.1
  refine ⟨info, hadmitted, ?_⟩
  have hsame : originCalls (h.map Event.wait ++ [w]) = originCalls (h.map Event.wait) := by
    rw [originCalls_append]
    simp [originCalls, originCall?_withPeers hw]
  rw [hsame]
  exact htraffic h hJ

/-! ### The size of the object -/

def Unasked (h : List (Event nodeSignature)) : Prop := originCalls (h.map Event.wait) = []

theorem follows_unasked {c : Proc α} (hadmitted : Admitted handler request info)
    (hc : c.Within WithPeers Whatever s) (hnothing : Unasked h) :
    c.Follows (nodeTraffic handler) (.request request) (fun h _ _ => Unasked h) h s := by
  refine follows_within hadmitted hc (fun h hJ => ?_) (fun h w reply hJ hw => ?_) hnothing
  · exact Or.inl ⟨0, HasAsked.of_nothing handler info 0 0 0 hJ⟩
  · unfold Unasked at hJ ⊢
    rw [List.map_append, originCalls_append, hJ, List.map_singleton, Event.wait_of]
    simp [originCalls, originCall?_withPeers hw]

def Sized (handler : RequestHandler) (info : CacheKeyInfo) (size : Nat)
    (h : List (Event nodeSignature)) : Prop :=
  HasAsked handler info size 0 0 h (originCalls (h.map Event.wait))

theorem follows_sized {c : Proc α} (hadmitted : Admitted handler request info)
    (hc : c.Within WithPeers Whatever s) (hsized : Sized handler info size h) :
    c.Follows (nodeTraffic handler) (.request request) (fun h _ _ => Sized handler info size h)
      h s :=
  follows_within hadmitted hc (fun _ hJ => Or.inl ⟨size, hJ⟩)
    (fun _ _ reply hJ hw => HasAsked.concat hw reply hJ) hsized

theorem originTraffic_head (hnothing : Unasked h) :
    OriginTraffic handler request info h
      (originCalls (h.map Event.wait ++ [.external (headCall info)])) := by
  refine Or.inl ⟨0, ?_⟩
  obtain ⟨-, -, -, -, htold, -, -⟩ := HasAsked.of_nothing handler info 0 0 0 hnothing
  refine ⟨[headCall info], [], ?_, Or.inr rfl, htold, List.Pairwise.nil, by simp⟩
  rw [originCalls_append, hnothing]
  rfl

theorem sized_head (hnothing : Unasked h) (head : ObjectMetadata) :
    Sized handler info head.size
      (h ++ [Event.external (⟨headCall info, some head⟩ : NetExchange)]) := by
  refine ⟨[headCall info], [], ?_, Or.inr rfl, fun other hmem => ?_, List.Pairwise.nil, by simp⟩
  · rw [List.map_append, originCalls_append, hnothing]
    rfl
  · obtain ⟨-, -, -, -, htold, -, -⟩ := HasAsked.of_nothing handler info head.size 0 0 hnothing
    rw [exchangesOf_append, List.mem_append] at hmem
    rcases hmem with hold | hnew
    · exact htold other hold
    · have hexchange := List.mem_singleton.mp hnew
      cases hexchange
      rfl

theorem follows_headObjectInfo (hadmitted : Admitted handler request info) (hnothing : Unasked h) :
    (headObjectInfo H fuel handler info).Follows (nodeTraffic handler) (.request request)
      (fun h value _ => ∀ obj, value = some obj → Sized handler info obj.size h) h s := by
  unfold headObjectInfo
  split
  · exact nofun
  · refine Follows.seq (follows_ask trivial ⟨info, hadmitted, originTraffic_head hnothing⟩) ?_
    rintro h' answer s' ⟨rfl, -⟩
    cases answer with
    | none => exact nofun
    | some head =>
        refine Follows.seq (follows_sized hadmitted (within_publishMeta whatever withPeers_lock _ _)
          (sized_head hnothing head)) ?_
        rintro h' _ s' hsized obj heq
        cases heq
        exact hsized

theorem follows_getObjectInfo (hadmitted : Admitted handler request info) (hnothing : Unasked h) :
    (getObjectInfo H fuel handler info).Follows (nodeTraffic handler) (.request request)
      (fun h value _ => ∀ obj, value = some obj → Sized handler info obj.size h) h s := by
  have hany : ∀ {h} (obj : ObjectInfo), Unasked h → Sized handler info obj.size h :=
    fun obj hnothing => HasAsked.of_nothing handler info obj.size 0 0 hnothing
  unfold getObjectInfo
  refine Follows.seq (follows_unasked hadmitted (within_cachedChunk whatever withPeers_lock _)
    hnothing) ?_
  intro h cached s hnothing
  simp only
  split
  · rintro obj heq
    exact hany obj hnothing
  · refine Follows.seq (follows_unasked hadmitted (within_downloadFromPeers _) hnothing) ?_
    intro h data s hnothing
    split
    · refine Follows.seq (follows_unasked hadmitted (within_cacheChunk whatever withPeers_lock _ _)
        hnothing) ?_
      rintro h _ s hnothing obj heq
      exact hany obj hnothing
    · exact follows_headObjectInfo hadmitted hnothing

/-! ### The chunks -/

/-- A GET for an object of this size, whose wanted range ends inside the object,
has asked for chunks before `next`. -/
structure Fetching (handler : RequestHandler) (request : HttpRequest) (info : CacheKeyInfo)
    (size next : Nat) (h : List (Event nodeSignature)) : Prop where
  method : request.method = ascii "GET"
  inside : (requestedRange request size).stop < size
  first : (requestedRange request size).start / handler.chunkSize ≤ next
  last : next ≤ (requestedRange request size).stop / handler.chunkSize + 1
  asked : HasAsked handler info size ((requestedRange request size).start / handler.chunkSize)
    next h (originCalls (h.map Event.wait))

theorem Fetching.traffic (hfetching : Fetching handler request info size next h) :
    OriginTraffic handler request info h (originCalls (h.map Event.wait)) :=
  Or.inr ⟨size, hfetching.method, hfetching.inside, hfetching.asked.mono hfetching.last⟩

theorem follows_fetching {c : Proc α} (hadmitted : Admitted handler request info)
    (hc : c.Within WithPeers Whatever s) (hfetching : Fetching handler request info size next h) :
    c.Follows (nodeTraffic handler) (.request request)
      (fun h _ _ => Fetching handler request info size next h) h s := by
  refine follows_within hadmitted hc (fun h hJ => hJ.traffic) (fun h w reply hJ hw => ?_) hfetching
  exact ⟨hJ.method, hJ.inside, hJ.first, hJ.last, hJ.asked.concat hw reply⟩

/-- A chunk that was not asked for may have come from somewhere else. -/
theorem Fetching.skip (hfetching : Fetching handler request info size next h)
    (hlast : next ≤ (requestedRange request size).stop / handler.chunkSize) :
    Fetching handler request info size (next + 1) h := by
  obtain ⟨hmethod, hinside, hfirst, -, hasked⟩ := hfetching
  exact ⟨hmethod, hinside, Nat.le_succ_of_le hfirst, Nat.succ_le_succ hlast,
    hasked.mono (Nat.le_succ next)⟩

theorem follows_fetchFromStorage {obj : ObjectInfo} (hadmitted : Admitted handler request info)
    (hfetching : Fetching handler request info obj.size next h)
    (hlast : next ≤ (requestedRange request obj.size).stop / handler.chunkSize) :
    (fetchFromStorage H fuel handler info obj next).Follows (nodeTraffic handler)
      (.request request) (fun h _ _ => Fetching handler request info obj.size (next + 1) h)
        h s := by
  have hchunk := hfetching.asked.chunk hfetching.first
  have hgoes := hfetching.skip hlast
  unfold fetchFromStorage
  split
  · exact hgoes
  · have hpermits : (nodeTraffic handler).permits (.request request) h s
        (.external (chunkCall handler info obj.size next)) := by
      refine ⟨info, hadmitted, Or.inr ⟨obj.size, hfetching.method, hfetching.inside, ?_⟩⟩
      rw [originCalls_append]
      exact hchunk.mono hgoes.last
    refine Follows.seq (follows_ask trivial hpermits) ?_
    rintro h' answer s' ⟨rfl, -⟩
    have hasked : Fetching handler request info obj.size (next + 1) (h ++
        [Event.external (⟨chunkCall handler info obj.size next, answer⟩ : NetExchange)]) :=
      ⟨hgoes.method, hgoes.inside, hgoes.first, hgoes.last, hchunk.answered⟩
    cases answer with
    | none => exact hasked
    | some data =>
        refine Follows.seq (follows_fetching hadmitted (within_amend _) hasked) ?_
        intro h' _ s' hasked
        refine Follows.seq
          (follows_fetching hadmitted (within_keepFromStorage whatever withPeers_lock _ _ _ _)
            hasked) ?_
        intro h' _ s' hasked'
        refine Follows.seq
          (follows_fetching hadmitted (within_announceLocalChunk whatever withPeers_lock _) hasked')
            ?_
        exact fun h'' _ s'' hasked'' => hasked''

theorem follows_fetchChunk {obj : ObjectInfo} (hadmitted : Admitted handler request info)
    (hfetching : Fetching handler request info obj.size next h)
    (hlast : next ≤ (requestedRange request obj.size).stop / handler.chunkSize) :
    (fetchChunk H fuel handler info obj next).Follows (nodeTraffic handler) (.request request)
      (fun h _ _ => Fetching handler request info obj.size (next + 1) h) h s := by
  unfold fetchChunk
  refine Follows.seq (follows_fetching hadmitted (within_cachedChunk whatever withPeers_lock _)
    hfetching) ?_
  intro h cached s hfetching
  cases cached with
  | some data => exact hfetching.skip hlast
  | none =>
      refine Follows.seq (follows_fetching hadmitted (within_downloadFromPeers _) hfetching) ?_
      intro h data s hfetching
      cases data with
      | some data =>
          refine Follows.seq (follows_fetching hadmitted (within_amend _) hfetching) ?_
          intro h _ s hfetching
          refine Follows.seq
            (follows_fetching hadmitted (within_cacheChunk whatever withPeers_lock _ _) hfetching)
              ?_
          intro h _ s hfetching
          refine Follows.seq
            (follows_fetching hadmitted (within_announceLocalChunk whatever withPeers_lock _)
              hfetching) ?_
          exact fun h _ s hfetching => hfetching.skip hlast
      | none => exact follows_fetchFromStorage hadmitted hfetching hlast

theorem follows_assembleChunks {obj : ObjectInfo} (hadmitted : Admitted handler request info)
    {rounds : Nat} {a : Assembly} (hfetching : Fetching handler request info obj.size next h)
    (hrounds : next + rounds = (requestedRange request obj.size).stop / handler.chunkSize + 1) :
    (assembleChunks handler.chunkSize (requestedRange request obj.size)
      (fun idx a => Coroutine.reveal (S := nodeSignature) (some ⟨info, obj, idx, a, none⟩))
      (fetchChunk H fuel handler info obj) rounds next a).Follows (nodeTraffic handler)
        (.request request) (fun _ _ _ => True) h s := by
  induction rounds generalizing next a h s with
  | zero => trivial
  | succ rounds ih =>
      unfold assembleChunks
      refine Follows.seq (follows_fetching hadmitted (within_reveal _) hfetching) ?_
      intro h _ s hfetching
      refine Follows.seq (follows_fetchChunk hadmitted hfetching (by omega)) ?_
      intro h fetched s hfetching
      obtain ⟨data, source⟩ := fetched
      cases data with
      | none => trivial
      | some data => exact ih hfetching (by omega)

theorem follows_handleRequest (request : HttpRequest) (s : Node) :
    (handleRequest H fuel handler request).Follows (nodeTraffic handler) (.request request)
      (fun _ _ _ => True) [] s := by
  unfold handleRequest
  simp only [handleRequestWith]
  split
  · trivial
  rename_i hmethod
  split
  · trivial
  rename_i info hparsed
  split
  · trivial
  rename_i hbucket
  have hadmitted : Admitted handler request info := by
    refine ⟨?_, hparsed, ?_⟩
    · simpa [or_iff_not_imp_left] using hmethod
    · simpa [or_iff_not_imp_left] using hbucket
  refine Follows.seq (follows_getObjectInfo hadmitted rfl) ?_
  intro h obj s hsized
  cases obj with
  | none => trivial
  | some obj =>
      simp only
      split
      · trivial
      rename_i hhead
      simp only [serveObject]
      split
      · trivial
      rename_i hvalid
      split
      · trivial
      rename_i hempty
      have hpos : 0 < obj.size := Nat.pos_of_ne_zero hempty
      have hsatisfiable : (requestedRange request obj.size).valid = true := by
        by_cases hrange : request.hasHeader (ascii "Range") = true
        · simpa [hrange] using hvalid
        · simp [requestedRange, hrange, hpos]
      have hbounds := requestedRange_bounds hpos hsatisfiable
      have hfirst := Nat.div_le_div_right (c := handler.chunkSize) hbounds.1
      have hfetching : Fetching handler request info obj.size
          ((requestedRange request obj.size).start / handler.chunkSize) h := by
        refine ⟨?_, hbounds.2, Nat.le_refl _, by omega, (hsized obj rfl).shift _⟩
        exact hadmitted.method.resolve_right (by simpa using hhead)
      refine Follows.seq (follows_assembleChunks hadmitted hfetching (by omega)) ?_
      intro h assembled s _
      cases assembled <;> trivial

/-! ## Whole runs -/

/-- The answer to the last question may tell the size, and then no chunk has been
asked for. -/
theorem OriginTraffic.told {w : Wait nodeSignature} (reply : w.Reply)
    (htraffic : OriginTraffic handler request info h (originCalls (h.map Event.wait ++ [w]))) :
    OriginTraffic handler request info (h ++ [Event.of w reply])
      (originCalls ((h ++ [Event.of w reply]).map Event.wait)) := by
  have hcalls : originCalls ((h ++ [Event.of w reply]).map Event.wait) =
      originCalls (h.map Event.wait ++ [w]) := by
    rw [List.map_append, List.map_singleton, Event.wait_of]
  by_cases hhead : ∃ head, Event.of w reply =
      .external (⟨.headObject info.bucket info.objectKey, some head⟩ : NetExchange)
  · obtain ⟨head, heq⟩ := hhead
    have hw : w = .external (headCall info) := by
      rw [← Event.wait_of w reply, heq]
      rfl
    have hnothing : Unasked h := by
      have hfirst : ∀ {size first next : Nat} {calls : List External},
          HasAsked handler info size first next h (calls ++ [headCall info]) → calls = [] := by
        rintro size first next calls ⟨heads, indices, heq, hheads, -⟩
        rcases List.eq_nil_or_concat indices with rfl | ⟨front, last, rfl⟩
        · rcases hheads with rfl | rfl
          · simp at heq
          · simpa using congrArg List.dropLast heq
        · rw [List.concat_eq_append, List.map_append, ← List.append_assoc] at heq
          have hlast := (List.append_inj' heq rfl).2
          cases hlast
      rw [originCalls_append, hw] at htraffic
      rcases htraffic with ⟨size, hasked⟩ | ⟨size, -, -, hasked⟩
      · exact hfirst hasked
      · exact hfirst hasked
    rw [heq]
    exact Or.inl ⟨head.size, sized_head hnothing head⟩
  · have hkeeps : ∀ {size first next},
        HasAsked handler info size first next h (originCalls (h.map Event.wait ++ [w])) →
        HasAsked handler info size first next (h ++ [Event.of w reply])
          (originCalls (h.map Event.wait ++ [w])) := by
      rintro size first next ⟨heads, indices, hasked, hheads, htold, hbounds⟩
      refine ⟨heads, indices, hasked, hheads, fun head hmem => ?_, hbounds⟩
      rw [exchangesOf_append, List.mem_append] at hmem
      refine htold head (hmem.resolve_right fun hnew => hhead ⟨head, ?_⟩)
      cases w with
      | external e => rw [List.mem_singleton.mp hnew]; rfl
      | spawn job => cases hnew
      | join id job => cases hnew
    rw [hcalls]
    rcases htraffic with ⟨size, hasked⟩ | ⟨size, hmethod, hinside, hasked⟩
    · exact Or.inl ⟨size, hkeeps hasked⟩
    · exact Or.inr ⟨size, hmethod, hinside, hkeeps hasked⟩

theorem follows_nodeEntry (job : Job) (s : Node) :
    ((nodeProgram H fuel handler).entry job).Follows (nodeTraffic handler) job
      ((nodeTraffic handler).Ended job) [] s := by
  have hwithin : ∀ {W : Wait nodeSignature → Prop} {c : Proc JobResult}, c.Within W Whatever s →
      (∀ h s w, W w → (nodeTraffic handler).permits job h s w) →
      c.Follows (nodeTraffic handler) job ((nodeTraffic handler).Ended job) [] s := by
    intro W c hc hpermits
    have hfollows := @Within.follows _ _ W Whatever s (nodeTraffic handler) job (fun _ => True) c []
      hc (fun _ _ _ => ⟨trivial, fun _ => trivial⟩) (fun h s w _ => hpermits h s w)
      (fun _ _ _ _ _ _ _ => trivial) trivial trivial
    exact hfollows.mono fun _ _ _ _ => ⟨trivial, trivial⟩
  have hany : ∀ (s : Node) t, SameContexts s.transfer t → Whatever s { s with transfer := t } :=
    fun _ _ _ => trivial
  cases job with
  | request request =>
      exact Follows.seq (follows_handleRequest request s) fun _ _ _ _ => ⟨trivial, trivial⟩
  | downloadFromPeer ctx peer expectedSha256 =>
      exact hwithin (Within.bind (within_downloadFromPeer hany ctx peer expectedSha256
        fun _ hw => hw) fun _ _ => within_pure _) fun _ _ _ hw => hw
  | downloadChunk transfer =>
      exact hwithin (Within.bind (within_downloadChunk (fun _ _ _ => trivial) (fun _ hw => hw)
        transfer) fun _ _ => within_pure _) fun _ _ _ hw => hw
  | uploadChunk chunkId data peer =>
      exact hwithin (Within.bind (within_uploadChunk hany chunkId data peer fun _ hw => hw)
        fun _ _ => within_pure _) fun _ _ _ hw => hw
  | chunkConnection =>
      exact hwithin (Within.bind (within_handleChunkRequest hany (fun _ hw => hw)
        (fun chunkId _ => within_loadChunk whatever (fun _ => trivial) chunkId)
        fun chunkId data _ => within_storeChunk whatever (fun _ => trivial) chunkId data)
        fun _ _ => within_pure _) fun _ _ _ hw => hw
  | cancelTransfer chunkId =>
      refine @hwithin (fun _ => False) _ ?_ fun _ _ _ hw => hw
      exact Within.bind (within_atomically fun _ _ _ => trivial) fun _ _ => within_pure _
  | discovery op =>
      refine @hwithin (fun _ => False) _ ?_ fun _ _ _ hw => hw
      exact Within.bind (within_atomically fun _ _ _ => trivial) fun _ _ => within_pure _

theorem disciplined_of_run {node : Node} {events : List NodeEvent} {sys : System nodeSignature}
    (hrun : runSteps (nodeStep H fuel handler) (.initial node) events = some sys) :
    sys.Follows (nodeTraffic handler) := by
  refine runSteps_invariant_taken (fun sys event sys' (hsys : sys.Follows (nodeTraffic handler)) _
    hstep => ?_) (System.Follows.initial trivial) hrun
  cases event with
  | task action =>
      have hentry : (nodeProgram H fuel handler).Enters (nodeTraffic handler) fun _ _ => True :=
        fun job s _ _ => follows_nodeEntry job s
      exact (hsys.step hentry (fun _ _ _ _ _ => trivial) (fun _ _ _ _ _ => trivial)
        (fun _ _ => trivial) (fun _ _ _ _ _ _ _ _ _ _ => trivial) hstep).1
  | cache op =>
      obtain ⟨cache, -, rfl⟩ := Option.map_eq_some_iff.mp hstep
      exact ⟨trivial, fun task htask =>
        ⟨(hsys.tasks task htask).1.changed trivial, (hsys.tasks task htask).2⟩⟩

theorem asked_of_run {node : Node} {events : List NodeEvent} {sys : System nodeSignature}
    (hrun : runSteps (nodeStep H fuel handler) (.initial node) events = some sys)
    {task : Task nodeSignature} (htask : task ∈ sys.tasks) :
    task.asked = [] ∨ ∃ history w s, task.asked = history.map Event.wait ++ [w] ∧
      (nodeTraffic handler).permits task.job history s w ∧
      (task.history = history ∨ ∃ reply, task.history = history ++ [Event.of w reply]) := by
  obtain ⟨hfollows, hpermitted⟩ := (disciplined_of_run hrun).tasks task htask
  rcases List.eq_nil_or_concat task.asked with hnil | ⟨front, w, hasked⟩
  · exact Or.inl hnil
  · rw [List.concat_eq_append] at hasked
    obtain ⟨history, hfront, ⟨s, hpermits⟩, hhistory⟩ := hfollows.asked hpermitted hasked
    exact Or.inr ⟨history, w, s, by rw [hfront, hasked], hpermits, hhistory⟩

theorem withPeers_of_permits {job : Job} (hjob : ∀ request, job ≠ .request request)
    {w : Wait nodeSignature} (hpermits : (nodeTraffic handler).permits job h s w) :
    WithPeers w := by
  cases job with
  | request request => exact absurd rfl (hjob request)
  | downloadFromPeer ctx peer expectedSha256 => exact Or.inl ⟨peer, hpermits⟩
  | downloadChunk transfer => exact hpermits
  | uploadChunk chunkId data peer => exact Or.inl ⟨peer, hpermits⟩
  | chunkConnection => exact Or.inl ⟨{}, Or.inl hpermits⟩
  | cancelTransfer chunkId => exact hpermits.elim
  | discovery op => exact hpermits.elim

/-- In every run, an admitted request has asked the origin as it should, a request
that is not admitted has asked nobody anything, and no other task has asked the
origin. -/
theorem originTraffic_of_run {node : Node} {events : List NodeEvent} {sys : System nodeSignature}
    (hrun : runSteps (nodeStep H fuel handler) (.initial node) events = some sys)
    {task : Task nodeSignature} (htask : task ∈ sys.tasks) :
    (∀ request info, task.job = .request request → Admitted handler request info →
      OriginTraffic handler request info task.history (originCalls task.asked)) ∧
    (∀ request, task.job = .request request → (∀ info, ¬ Admitted handler request info) →
      task.asked = []) ∧
    ((∀ request, task.job ≠ .request request) → originCalls task.asked = []) := by
  refine ⟨fun request info hjob hadmitted => ?_, fun request hjob hrefused => ?_, fun hother => ?_⟩
  · rcases asked_of_run hrun htask with hnil | ⟨history, w, _, hasked, hpermits, hhistory⟩
    · have hnever : task.history = [] := by
        rw [Task.asked, List.append_eq_nil_iff, List.map_eq_nil_iff] at hnil
        exact hnil.1
      rw [hnil, hnever]
      exact Or.inl ⟨0, HasAsked.of_nothing handler info 0 0 0 rfl⟩
    · rw [hjob] at hpermits
      obtain ⟨info', hadmitted', htraffic⟩ := hpermits
      have hsame : info' = info := Option.some.inj (hadmitted'.parsed.symm.trans hadmitted.parsed)
      rw [hsame] at htraffic
      rcases hhistory with hopen | ⟨reply, hanswered⟩
      · rw [hasked, hopen]
        exact htraffic
      · rw [hasked, hanswered]
        have htold := htraffic.told reply
        rwa [List.map_append, List.map_singleton, Event.wait_of] at htold
  · rcases asked_of_run hrun htask with hnil | ⟨history, w, _, -, hpermits, -⟩
    · exact hnil
    · rw [hjob] at hpermits
      obtain ⟨info, hadmitted, -⟩ := hpermits
      exact absurd hadmitted (hrefused info)
  · refine List.filterMap_eq_nil_iff.mpr fun w hw => ?_
    obtain ⟨hfollows, hpermitted⟩ := (disciplined_of_run hrun).tasks task htask
    obtain ⟨history, _, hpermits⟩ := hfollows.permits hpermitted hw
    exact originCall?_withPeers (withPeers_of_permits hother hpermits)

/-- In every run, a connection that a peer has opened asks for nothing but its own
stream, a transfer with one peer connects to nobody else, and bookkeeping asks
nothing. -/
theorem peerTraffic_of_run {node : Node} {events : List NodeEvent} {sys : System nodeSignature}
    (hrun : runSteps (nodeStep H fuel handler) (.initial node) events = some sys)
    {task : Task nodeSignature} (htask : task ∈ sys.tasks) :
    (task.job = .chunkConnection → ∀ w ∈ task.asked, OnStream w) ∧
    (∀ ctx peer expectedSha256, task.job = .downloadFromPeer ctx peer expectedSha256 →
      ∀ w ∈ task.asked, WithPeer peer w) ∧
    (∀ chunkId data peer, task.job = .uploadChunk chunkId data peer →
      ∀ w ∈ task.asked, WithPeer peer w) ∧
    ((∃ chunkId, task.job = .cancelTransfer chunkId) ∨ (∃ op, task.job = .discovery op) →
      task.asked = []) := by
  obtain ⟨hfollows, hpermitted⟩ := (disciplined_of_run hrun).tasks task htask
  have hasked : ∀ w ∈ task.asked, ∃ history s, (nodeTraffic handler).permits task.job history s w :=
    fun w hw => hfollows.permits hpermitted hw
  refine ⟨fun hjob w hw => ?_, fun ctx peer expectedSha256 hjob w hw => ?_,
    fun chunkId data peer hjob w hw => ?_, fun hjob => List.eq_nil_iff_forall_not_mem.mpr ?_⟩
  · obtain ⟨history, _, hpermits⟩ := hasked w hw
    rwa [hjob] at hpermits
  · obtain ⟨history, _, hpermits⟩ := hasked w hw
    rwa [hjob] at hpermits
  · obtain ⟨history, _, hpermits⟩ := hasked w hw
    rwa [hjob] at hpermits
  · intro w hw
    obtain ⟨history, _, hpermits⟩ := hasked w hw
    rcases hjob with ⟨chunkId, hjob⟩ | ⟨op, hjob⟩
    · rwa [hjob] at hpermits
    · rwa [hjob] at hpermits

end Traffic

/-! ## Two tasks -/

/-- A GET that has asked for the size and for one chunk. -/
theorem originTraffic_of_run_get :
    ∃ sys task request info,
      runSteps (nodeStep sampleSha256 0 {}) (.initial (announcingNode diskConfig)) announcingGet =
        some sys ∧ task ∈ sys.tasks ∧ Admitted {} request info ∧
      (originCalls task.asked).length = 2 ∧
      OriginTraffic {} request info task.history (originCalls task.asked) := by
  have hran : ((runSteps (nodeStep sampleSha256 0 {}) (.initial (announcingNode diskConfig))
      announcingGet).any fun sys => sys.tasks.any fun task =>
        (requestedKey task).isSome && (originCalls task.asked).length == 2) = true := by
    decide +kernel
  obtain ⟨sys, hrun, hsys⟩ := (Option.any_eq_true _ _).mp hran
  obtain ⟨task, htask, hfound⟩ := List.any_eq_true.mp hsys
  simp only [Bool.and_eq_true, beq_iff_eq, Option.isSome_iff_exists] at hfound
  obtain ⟨⟨key, hkey⟩, hlength⟩ := hfound
  obtain ⟨request, _, hjob, -⟩ := request_of_requestedKey hkey
  have htraffic := originTraffic_of_run hrun htask
  have hadmitted : ∃ info, Admitted {} request info := by
    by_contra hrefused
    have hnothing := htraffic.2.1 request hjob fun info hinfo => hrefused ⟨info, hinfo⟩
    rw [hnothing] at hlength
    cases hlength
  obtain ⟨info, hadmitted⟩ := hadmitted
  exact ⟨sys, task, request, info, hrun, htask, hadmitted, hlength,
    htraffic.1 request info hjob hadmitted⟩

/-- A connection that waits for its header. -/
theorem peerTraffic_of_run_waiting :
    ∃ sys task, runSteps (nodeStep sampleSha256 0 {}) (.initial (announcingNode diskConfig))
        [.task (.start .chunkConnection), .task (.resume 0 (P2P.answers [] none fun _ _ => none))] =
          some sys ∧ task ∈ sys.tasks ∧ task.asked.length = 1 ∧ ∀ w ∈ task.asked, OnStream w := by
  have hran : ((runSteps (nodeStep sampleSha256 0 {}) (.initial (announcingNode diskConfig))
      [.task (.start .chunkConnection),
        .task (.resume 0 (P2P.answers [] none fun _ _ => none))]).any fun sys =>
          sys.tasks.any fun task => answersPeer task.job && task.asked.length == 1) = true := by
    decide +kernel
  obtain ⟨sys, hrun, hsys⟩ := (Option.any_eq_true _ _).mp hran
  obtain ⟨task, htask, hfound⟩ := List.any_eq_true.mp hsys
  obtain ⟨hanswers, hlength⟩ := Bool.and_eq_true_iff.mp hfound
  exact ⟨sys, task, hrun, htask, beq_iff_eq.mp hlength,
    (peerTraffic_of_run hrun htask).1 (chunkConnection_of_answersPeer hanswers)⟩

end ElioP2P.Proxy
