import ElioP2P.Proxy.Proofs.Clusters
import ElioP2P.Proxy.Proofs.ObjectTruth
import ElioP2P.Proxy.Proofs.RecordedHash

/-!
# An object in a cluster

However requests, downloads, chunk server connections and cache calls of all
nodes are interleaved, and whomever a connection reaches, an object that the
origin never changes stays itself in every cache and in every response.
-/

namespace ElioP2P.Proxy.StoredObject

open ElioP2P.Library ElioP2P.Cache ElioP2P.Cache.ChunkManager
open ElioP2P.P2P hiding Quiet

variable {O : StoredObject} {H : Sha256} {fuel : Nat} {handler : Nat → RequestHandler}
  {nodes : List Node} {events : List ClusterEvent} {cluster : Cluster}

def HonestRun (O : StoredObject) (H : Sha256) (fuel : Nat) (handler : Nat → RequestHandler)
    (nodes : List Node) (events : List ClusterEvent) : Prop :=
  EveryStep (Cluster.step H fuel handler)
    (fun cluster event => Cluster.Honest (O.terms H) cluster event ∧ cluster.Delivers event)
    (Cluster.initial nodes) events

theorem sound_of_run (hsize : ∀ node, (handler node).chunkSize = O.chunkSize)
    (hnodes : ∀ s ∈ nodes, Upright O.truth s) (hhonest : O.HonestRun H fuel handler nodes events)
    (hrun : runSteps (Cluster.step H fuel handler) (Cluster.initial nodes) events = some cluster) :
    cluster.Sound (O.terms H) :=
  Cluster.Sound.of_run (A := O.terms H) (fun node => O.enters H (hsize node) fuel) hnodes hhonest
    hrun

/-- Each cached copy of a chunk is the chunk, each cached `#meta` line that can be
read tells the object's size, and each download of a chunk that has ended with data
has ended with the chunk. -/
structure KeptBy (O : StoredObject) (sys : System nodeSignature) : Prop where
  chunks : ∀ i data, i * O.chunkSize < O.content.length →
    Copy sys.shared.cache (O.chunkId i) data → data = O.chunk i
  lines : ∀ line obj, Copy sys.shared.cache (metaKey O.key) line → parseMeta line = some obj →
    obj.size = O.content.length
  downloads : ∀ task ∈ sys.tasks, ∀ request i data, task.job = .downloadChunk request →
    request.chunkId = O.chunkId i → i * O.chunkSize < O.content.length →
      task.result? = some (.chunk (some data)) → data = O.chunk i

/-- Every node keeps the object as it is. -/
theorem copies_of_run (hsize : ∀ node, (handler node).chunkSize = O.chunkSize)
    (hnodes : ∀ s ∈ nodes, Upright O.truth s) (hhonest : O.HonestRun H fuel handler nodes events)
    (hrun : runSteps (Cluster.step H fuel handler) (Cluster.initial nodes) events = some cluster)
    {sys : System nodeSignature} (hsys : sys ∈ cluster.nodes) : O.KeptBy sys where
  chunks i data hi hcopy := by
    have hupright : Upright O.truth sys.shared :=
      ((sound_of_run hsize hnodes hhonest hrun).nodes sys hsys).shared
    exact (hupright.copies _ _ hcopy).1 i hi rfl
  lines line obj hcopy hparse := by
    have hupright : Upright O.truth sys.shared :=
      ((sound_of_run hsize hnodes hhonest hrun).nodes sys hsys).shared
    exact (((hupright.copies _ _ hcopy).2 rfl).2 obj hparse).size
  downloads task htask request i data hjob hid hi hresult := by
    have hends := ((sound_of_run hsize hnodes hhonest hrun).nodes sys hsys).ended htask hresult
    rw [hjob] at hends
    have hright : O.IsRight request.chunkId data := hends data rfl
    rw [hid] at hright
    exact hright.1 i hi rfl

/-- Every successful response to a request for the object is faithful to it. -/
theorem responses_of_run (hsize : ∀ node, (handler node).chunkSize = O.chunkSize)
    (hnodes : ∀ s ∈ nodes, Upright O.truth s) (hhonest : O.HonestRun H fuel handler nodes events)
    (hrun : runSteps (Cluster.step H fuel handler) (Cluster.initial nodes) events = some cluster)
    {sys : System nodeSignature} (hsys : sys ∈ cluster.nodes) {task : Task nodeSignature}
    (htask : task ∈ sys.tasks) {request : HttpRequest} {info : CacheKeyInfo} {handled : Handled}
    (hjob : task.job = .request request) (hinfo : parseCacheKey request = some info)
    (hkey : info.fullObjectKey = O.key) (hresult : task.result? = some (.response handled))
    (hsuccess : Successful handled) : O.Faithful request handled := by
  have hends := ((sound_of_run hsize hnodes hhonest hrun).nodes sys hsys).ended htask hresult
  rw [hjob] at hends
  exact hends handled rfl info hinfo hkey hsuccess

/-! ## From the origin over one node to another -/

def sampleObject : StoredObject where
  key := ascii "b/k"
  content := [1]
  chunkSize := 2 ^ 24
  chunkSize_pos := by decide
  chunkSize_lt := by decide
  length_le := by decide
  key_lt := by decide

def relayNodes : List Node := [announcingNode diskConfig, announcingNode diskConfig]

def relayed (node id : Nat) (bytes : Bytes) : ClusterEvent := .node node (.task (reads id bytes))

def relayRequest : Bytes :=
  headerBytes (requestHeader { chunkId := ascii "b/k_0", filePath := ⟨[], []⟩, isResume := true })

def relayResponse : Bytes :=
  headerBytes (hashedHeader sampleSha256 .response 5 1 ChunkMessageHeader.flagLastPart [1])

/-- A GET at the first node; then the second one downloads the chunk from it. -/
def relayRun : List ClusterEvent :=
  announcingGet.map (.node 0 ·) ++
    [.node 1 (.task (.start (.downloadChunk
        { chunkId := ascii "b/k_0", sources := [samplePeer] }))),
      relayed 1 0 [], relayed 1 0 [], relayed 1 1 [], relayed 1 1 [],
      .accept 1 1 1 0, relayed 1 1 [], relayed 1 1 [],
      relayed 0 1 [], relayed 0 1 relayRequest, relayed 0 1 (ascii "b/k_0"),
      relayed 0 1 [], relayed 0 1 [], relayed 0 1 [], relayed 0 1 [], relayed 0 1 [],
      relayed 1 1 relayResponse, relayed 1 1 (ascii "b/k_0"), relayed 1 1 [], relayed 1 1 [1],
      relayed 1 1 [], relayed 1 0 []]

theorem upright_relayNodes : ∀ s ∈ relayNodes, Upright sampleObject.truth s := by
  have hnode : Upright sampleObject.truth (announcingNode diskConfig) := by
    refine ⟨owned_of_empty rfl, FileSystem.faultless_empty, fun id data hcopy => ?_⟩
    have hmemory : (announcingNode diskConfig).cache.memoryCache.dataOf id = none := rfl
    have hdisk : (announcingNode diskConfig).cache.loadFromDisk id = none := rfl
    simp [ChunkManager.Copy, hmemory, hdisk] at hcopy
  simp [relayNodes, hnode]

theorem honest_relayed (cluster : Cluster) (node id : Nat) (bytes : Bytes) :
    Cluster.Honest (sampleObject.terms sampleSha256) cluster (relayed node id bytes) := by
  intro e
  cases e with
  | headObject bucket objectKey =>
      intro _ head hhead
      cases hhead
  | getObject bucket objectKey offset length =>
      intro _ data hdata
      cases hdata
  | _ => trivial

theorem honest_announcingGet (cluster : Cluster) :
    ∀ event ∈ announcingGet, Cluster.Honest (sampleObject.terms sampleSha256) cluster
      (.node 0 event) := by
  have horigin : ∀ e, sampleObject.Truthful e (originOf 1 (ascii "e") 0 [1] e) := by
    have hword : IsWord (ascii "e") := by decide
    have hkeeps := @originKeeps_originOf [1] (ascii "e") [1] 0 (ascii "b/k") 0 rfl hword
    intro e
    cases e with
    | headObject bucket objectKey =>
        intro hname head hhead
        cases hhead
        exact ⟨rfl, hword.2, by decide⟩
    | getObject bucket objectKey offset length =>
        intro hname data hdata
        exact hkeeps.1 bucket objectKey offset length data hname hdata
    | _ => trivial
  have hown : OwnFile (ascii "b/k") (.request wholeRequest) := by
    have hkey : ∀ info ∈ parseCacheKey wholeRequest, info.fullObjectKey = ascii "b/k" := by decide
    intro info hinfo hne
    exact absurd (hkey info hinfo) hne
  intro event hevent
  obtain ⟨action, haction, rfl⟩ := List.mem_map.mp hevent
  rcases List.mem_cons.mp haction with rfl | hresume
  · exact fun _ _ => hown
  · rw [List.eq_of_mem_replicate hresume]
    exact horigin

theorem honestRun_relay :
    sampleObject.HonestRun sampleSha256 0 (fun _ => {}) relayNodes relayRun := by
  have hdelivers : EveryStep (Cluster.step sampleSha256 0 fun _ => {}) Cluster.Delivers
      (Cluster.initial relayNodes) relayRun := by
    decide +kernel
  have hhonest : ∀ event ∈ relayRun,
      ∀ cluster, Cluster.Honest (sampleObject.terms sampleSha256) cluster event := by
    intro event hevent cluster
    revert event
    rw [relayRun, List.forall_mem_append]
    constructor
    · intro event hget
      obtain ⟨action, haction, rfl⟩ := List.mem_map.mp hget
      exact honest_announcingGet cluster action haction
    · simp only [List.forall_mem_cons, honest_relayed, true_and]
      exact ⟨fun _ _ => trivial, trivial, by simp⟩
  exact ((EveryStep.of_forall hhonest).mono fun _ _ h => h _).and hdelivers

theorem copies_of_run_relay :
    ∃ cluster holder receiver task,
      runSteps (Cluster.step sampleSha256 0 fun _ => {}) (Cluster.initial relayNodes) relayRun =
        some cluster ∧ holder ∈ cluster.nodes ∧ receiver ∈ cluster.nodes ∧
      Copy holder.shared.cache (sampleObject.chunkId 0) [1] ∧
      task ∈ receiver.tasks ∧ task.result? = some (.chunk (some [1])) ∧
      ∀ sys ∈ cluster.nodes, sampleObject.KeptBy sys := by
  have hran : ((runSteps (Cluster.step sampleSha256 0 fun _ => {}) (Cluster.initial relayNodes)
      relayRun).any fun cluster =>
        (cluster.nodes.any fun sys => decide
          (sys.shared.cache.memoryCache.dataOf (sampleObject.chunkId 0) = some [1])) &&
        cluster.nodes.any fun sys => sys.tasks.any fun task =>
          decide (returnedChunk task = some [1])) = true := by
    decide +kernel
  obtain ⟨cluster, hrun, hcluster⟩ := (Option.any_eq_true _ _).mp hran
  simp only [Bool.and_eq_true, List.any_eq_true, decide_eq_true_eq] at hcluster
  obtain ⟨⟨holder, hholder, hcopy⟩, receiver, hreceiver, task, htask, hreturned⟩ := hcluster
  exact ⟨cluster, holder, receiver, task, hrun, hholder, hreceiver, Or.inl hcopy, htask,
    result_of_returnedChunk hreturned,
    fun sys hsys => copies_of_run (fun _ => rfl) upright_relayNodes honestRun_relay hrun hsys⟩

theorem responses_of_run_relay :
    ∃ cluster sys task request handled,
      runSteps (Cluster.step sampleSha256 0 fun _ => {}) (Cluster.initial relayNodes) relayRun =
        some cluster ∧ sys ∈ cluster.nodes ∧ task ∈ sys.tasks ∧ task.job = .request request ∧
      task.result? = some (.response handled) ∧ handled.response.statusCode = 200 ∧
      sampleObject.Faithful request handled := by
  have hran : ((runSteps (Cluster.step sampleSha256 0 fun _ => {}) (Cluster.initial relayNodes)
      relayRun).any fun cluster => cluster.nodes.any fun sys => sys.tasks.any fun task =>
        decide (requestedKey task = some sampleObject.key) &&
        (responseOf task).any fun handled =>
          decide (handled.response.statusCode = 200)) = true := by
    decide +kernel
  obtain ⟨cluster, hrun, hcluster⟩ := (Option.any_eq_true _ _).mp hran
  simp only [Bool.and_eq_true, List.any_eq_true, Option.any_eq_true, decide_eq_true_eq]
    at hcluster
  obtain ⟨sys, hsys, task, htask, hkey, handled, hresponse, hstatus⟩ := hcluster
  obtain ⟨request, info, hjob, hinfo, hname⟩ := request_of_requestedKey hkey
  have hresult := result_of_responseOf hresponse
  exact ⟨cluster, sys, task, request, handled, hrun, hsys, htask, hjob, hresult, hstatus,
    responses_of_run (fun _ => rfl) upright_relayNodes honestRun_relay hrun hsys htask hjob hinfo
      hname hresult (Or.inl hstatus)⟩

end ElioP2P.Proxy.StoredObject
