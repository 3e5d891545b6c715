import ElioP2P.P2P.Proofs.TransferTasks

/-!
# Whom a call contacts

The history of a call has a shape of its own: first it spawns a download from
each selected peer, then it joins all of them, and only if none has brought a
copy it asks other peers itself.  Each download that it has spawned connects once.
-/

namespace ElioP2P.P2P

open ElioP2P.Library ElioP2P.Library.Coroutine ElioP2P.Proxy

/-! ## The shape of a history -/

def spawnedEvent (c : Nat) (expectedSha256 : Bytes) (handle : Nat × PeerNode) :
    Event nodeSignature :=
  .spawned handle.1 (.downloadFromPeer c handle.2 expectedSha256)

def JoinOf (c : Nat) (expectedSha256 : Bytes) (handle : Nat × PeerNode)
    (event : Event nodeSignature) : Prop :=
  ∃ finished, event = .joined handle.1 (.downloadFromPeer c handle.2 expectedSha256) finished

def OnlyAsks (events : List (Event nodeSignature)) : Prop :=
  ∀ event ∈ events, ∃ x, event = .external x

/-- A call has spawned a download from each of the selected peers, has joined
them all and, unless one of them has brought a copy, has asked others itself. -/
def Ran (c : Nat) (expectedSha256 : Bytes) (selected : List PeerNode)
    (h : List (Event nodeSignature)) : Prop :=
  ∃ handles joins asked, handles.map Prod.snd = selected ∧
    h = handles.map (spawnedEvent c expectedSha256) ++ joins ++ asked ∧
    List.Forall₂ (JoinOf c expectedSha256) handles joins ∧ OnlyAsks asked ∧
    (adopted h ≠ none → asked = [])

/-- What a call that has begun in context `c` comes to: a copy that was joined is
returned, and other data comes from the last peer that the call has asked. -/
structure RunsTo (H : Sha256) (c : Nat) (expectedSha256 : Bytes) (selected : List PeerNode)
    (h : List (Event nodeSignature)) (result : Option Bytes) : Prop where
  ran : Ran c expectedSha256 selected h
  adopts : adopted h ≠ none → result.isSome = true
  delivered : adopted h = none → ∀ data, result = some data →
    ∃ peer, Delivered H peer expectedSha256 (exchangesOf h) data

/-- Where contact has been made for a call with this history: by the downloads
that it has spawned and by itself, in order. -/
def contactsOf (sys : System nodeSignature) (h : List (Event nodeSignature)) :
    List (Bytes × UInt16) :=
  h.flatMap fun
    | .spawned id _ => (sys.tasks[id]?.map fun child => connectsOf child.history).getD []
    | .external x => connectsOf [.external x]
    | .joined _ _ _ => []

theorem exists_joined_of_adopted {h : List (Event nodeSignature)} (hadopted : adopted h ≠ none) :
    ∃ id job finished result, .joined id job finished ∈ h ∧
      finished.result = JobResult.peerDownload result ∧ result.success = true := by
  obtain ⟨copy, hcopy⟩ := Option.ne_none_iff_exists'.mp hadopted
  obtain ⟨event, hmem, hbrought⟩ := List.exists_of_findSome?_eq_some hcopy
  unfold broughtBy at hbrought
  split at hbrought
  · rename_i id ctx peer expectedSha256 exchanges result
    split at hbrought
    · exact ⟨id, _, _, result, hmem, rfl, by assumption⟩
    · cases hbrought
  · cases hbrought

theorem adopted_of_onlyAsks {asked : List (Event nodeSignature)} (h : OnlyAsks asked) :
    adopted asked = none := by
  refine List.findSome?_eq_none_iff.mpr fun event hevent => ?_
  obtain ⟨x, rfl⟩ := h event hevent
  rfl

theorem adopted_spawned (c : Nat) (expectedSha256 : Bytes) (handles : List (Nat × PeerNode)) :
    adopted (handles.map (spawnedEvent c expectedSha256)) = none := by
  refine List.findSome?_eq_none_iff.mpr fun event hevent => ?_
  obtain ⟨handle, -, rfl⟩ := List.mem_map.mp hevent
  rfl

section Call

variable {H : Sha256} {expectedSha256 : Bytes} {c : Nat} {h : List (Event nodeSignature)}
  {found s : Node}

def toldSections (H : Sha256) : Regime nodeSignature where
  begins _ := True
  admits _ _ w reply := Told H w reply
  leaves _ _ _ := True
  throws _ _ _ := True
  waits _ _ w :=
    match w with
    | .external _ => True
    | .spawn job | .join _ job => ∃ c peer expectedSha256,
        job = .downloadFromPeer c peer expectedSha256

theorem covers_toldSections
    {ends : List (Event nodeSignature) → JobResult → Prop} (hthrown : ∀ h, ends h .thrown) :
    (toldSections H).Covers ((toldSections H).Ends ends) :=
  fun h _ _ _ => ⟨trivial, hthrown h⟩

theorem meets_spawnDownloads_told (peers : List PeerNode) :
    (spawnDownloads c expectedSha256 peers).Meets (toldSections H)
      (fun h' handles _ _ => handles.map Prod.snd = peers ∧
        h' = h ++ handles.map (spawnedEvent c expectedSha256)) h found s := by
  induction peers generalizing h found s with
  | nil => exact ⟨rfl, by simp⟩
  | cons peer peers ih =>
      refine Meets.bind ⟨trivial, ⟨c, peer, expectedSha256, rfl⟩, fun s' (id : Nat) _ => ?_⟩
      refine Meets.seq ih ?_
      rintro h' handles found s ⟨hpeers, rfl⟩
      refine ⟨by rw [List.map_cons, hpeers], ?_⟩
      rw [List.map_cons, List.append_assoc]
      rfl

theorem meets_joinDownloads_told {handles : List (Nat × PeerNode)} {winner : Option Bytes} :
    (joinDownloads c expectedSha256 handles winner).Meets (toldSections H)
      (fun h' winner' _ _ => ∃ joins, h' = h ++ joins ∧
        List.Forall₂ (JoinOf c expectedSha256) handles joins ∧
          (winner'.isSome = true ↔ winner.isSome = true ∨ adopted joins ≠ none)) h found s := by
  induction handles generalizing h found s winner with
  | nil => exact ⟨[], by simp, .nil, by simp [adopted]⟩
  | cons handle handles ih =>
      refine Meets.bind (Meets.bind ⟨trivial, ⟨c, handle.2, expectedSha256, rfl⟩,
        fun s' finished hadmits => ?_⟩)
      obtain ⟨result, hresult, -⟩ := hadmits
      obtain ⟨exchanges, value⟩ := finished
      simp only at hresult
      subst hresult
      change ((if winner.isNone && result.success then _ else _ : Proc (Option Bytes))).Meets _ _
        (h ++ [Event.joined handle.1 (Job.downloadFromPeer c handle.2 expectedSha256)
          ⟨exchanges, .peerDownload result⟩]) s' s'
      have hadopted : ∀ joins, adopted (Event.joined handle.1
          (Job.downloadFromPeer c handle.2 expectedSha256) ⟨exchanges, .peerDownload result⟩ ::
            joins) ≠ none ↔ result.success = true ∨ adopted joins ≠ none := by
        intro joins
        cases hsuccess : result.success with
        | true => simp [adopted, broughtBy, hsuccess]
        | false => simp [adopted, broughtBy, hsuccess]
      have hjoin : JoinOf c expectedSha256 handle (Event.joined handle.1
          (Job.downloadFromPeer c handle.2 expectedSha256) ⟨exchanges, .peerDownload result⟩) :=
        ⟨_, rfl⟩
      split
      · rename_i hwins
        simp only [Bool.and_eq_true] at hwins
        refine Meets.bind (meets_onTransfer ?_)
        refine ih.mono ?_
        rintro h' winner' found s ⟨joins, rfl, hjoins, hsome⟩
        refine ⟨_ :: joins, by simp, .cons hjoin hjoins, ?_⟩
        rw [hsome, hadopted]
        simp [hwins.2]
      · rename_i hloses
        refine ih.mono ?_
        rintro h' winner' found s ⟨joins, rfl, hjoins, hsome⟩
        refine ⟨_ :: joins, by simp, .cons hjoin hjoins, ?_⟩
        rw [hsome, hadopted]
        cases winner with
        | some data => simp
        | none => simp [show result.success = false by simpa using hloses]

theorem tolerates_toldSections (before : List (Event nodeSignature)) :
    Tolerates (toldSections H) fun h => ∃ asked, h = before ++ asked ∧ OnlyAsks asked where
  starts _ _ _ _ _ := trivial
  quiet _ _ _ _ _ _ := trivial
  waits _ _ _ := trivial
  lasts h s e answer _ _ hasked := by
    obtain ⟨asked, rfl, hasked⟩ := hasked
    exact ⟨_, List.append_assoc _ _ _, fun event hmem => by
      rcases List.mem_append.mp hmem with hold | hnew
      · exact hasked event hold
      · exact ⟨_, List.mem_singleton.mp hnew⟩⟩

theorem meets_tryFallback_told (peers : List PeerNode) :
    (tryFallback H c expectedSha256 peers).Meets (toldSections H)
      (fun h' result _ _ => (∃ asked, h' = h ++ asked ∧ OnlyAsks asked) ∧
        ∀ data, result = some data →
          ∃ peer, Delivered H peer expectedSha256 (exchangesOf h') data) h found s := by
  induction peers generalizing h found s with
  | nil => exact ⟨⟨[], by simp, nofun⟩, nofun⟩
  | cons peer peers ih =>
      refine Meets.bind (meets_onTransfer ?_)
      split
      · exact ⟨⟨[], by simp, nofun⟩, nofun⟩
      refine Meets.seq (meets_downloadFromPeer_told (tolerates_toldSections h)
        (fun _ _ _ _ => id) c peer trivial fun _ connected _ => ?_) ?_
      · exact ⟨_, rfl, fun event hmem => ⟨_, List.mem_singleton.mp hmem⟩⟩
      rintro h' result found s ⟨-, hasked, -, hdelivered⟩
      split
      · rename_i hsuccess
        refine Meets.bind (meets_onTransfer ⟨hasked, ?_⟩)
        rintro data hdata
        cases hdata
        exact ⟨peer, hdelivered hsuccess⟩
      · obtain ⟨asked, rfl, hasked⟩ := hasked
        refine ih.mono ?_
        rintro h' value found s ⟨⟨later, rfl, hlater⟩, hdata⟩
        refine ⟨⟨asked ++ later, List.append_assoc _ _ _, fun event hmem => ?_⟩, hdata⟩
        exact (List.mem_append.mp hmem).elim (hasked event) (hlater event)

theorem meets_raceDownloads_told (candidates selected : List PeerNode) :
    (raceDownloads H c expectedSha256 candidates selected).Meets (toldSections H)
      (fun h result _ _ => RunsTo H c expectedSha256 selected h result) [] found s := by
  refine Meets.seq (meets_spawnDownloads_told selected) ?_
  rintro h handles found s ⟨hpeers, rfl⟩
  refine Meets.seq meets_joinDownloads_told ?_
  rintro h winner found s ⟨joins, rfl, hjoins, hwinner⟩
  have hspawns := adopted_spawned c expectedSha256 handles
  cases winner with
  | some data =>
      have hbrought : adopted joins ≠ none := by simpa using hwinner
      refine ⟨⟨handles, joins, [], hpeers, by simp, hjoins, nofun, fun _ => rfl⟩, fun _ => rfl,
        fun hnone => absurd ?_ hbrought⟩
      rwa [List.nil_append, adopted_append, hspawns, Option.none_or] at hnone
  | none =>
      have hnone : adopted joins = none := by simpa using hwinner
      refine (meets_tryFallback_told _).mono ?_
      rintro h result found s ⟨⟨asked, rfl, hasked⟩, hdelivered⟩
      have hnothing :
          adopted ([] ++ handles.map (spawnedEvent c expectedSha256) ++ joins ++ asked) =
          none := by
        rw [adopted_append, adopted_append, adopted_append, hspawns, hnone,
          adopted_of_onlyAsks hasked]
        rfl
      exact ⟨⟨handles, joins, asked, hpeers, by simp, hjoins, hasked, fun hsome =>
        absurd hnothing hsome⟩, fun hsome => absurd hnothing hsome, fun _ => hdelivered⟩

theorem meets_downloadChunk_told {request : TransferRequest} {candidates selected : List PeerNode}
    (hrunning : s.transfer.running = true)
    (hbegun : (beginDownload request s).1 = .race c candidates selected) :
    (downloadChunk H request).Meets (toldSections H)
      (fun h result _ _ => RunsTo H c request.expectedSha256 selected h result) [] s s := by
  refine Meets.bind (meets_onTransfer ?_)
  rw [if_neg (by simp [hrunning])]
  have hbegin : some (beginDownload request s) =
      some ((beginDownload request s).1, (beginDownload request s).2) := rfl
  refine Meets.bind (meets_atomically hbegin ?_)
  rw [hbegun]
  refine Meets.seq (meets_raceDownloads_told candidates selected) ?_
  intro h result found s' hran
  refine Meets.bind (meets_onTransfer ?_)
  split
  · exact hran
  · exact trivial

end Call

/-! ## Contacts -/

section Contacts

variable {H : Sha256} {sys : System nodeSignature} {c : Nat} {expectedSha256 : Bytes}
  {selected : List PeerNode} {h : List (Event nodeSignature)}

theorem contactsOf_append (sys : System nodeSignature) (h h' : List (Event nodeSignature)) :
    contactsOf sys (h ++ h') = contactsOf sys h ++ contactsOf sys h' := List.flatMap_append

theorem contactsOf_onlyAsks {asked : List (Event nodeSignature)} (hasked : OnlyAsks asked) :
    contactsOf sys asked = connectsOf asked := by
  induction asked with
  | nil => rfl
  | cons event asked ih =>
      obtain ⟨x, rfl⟩ := hasked event (by simp)
      have hlater := ih fun event hmem => hasked event (List.mem_cons_of_mem _ hmem)
      rw [← List.singleton_append, contactsOf_append, connectsOf_append, hlater]
      simp [contactsOf]

/-! ### The parts of a history -/

theorem contactsOf_joins {handles : List (Nat × PeerNode)} {joins : List (Event nodeSignature)}
    (hjoins : List.Forall₂ (JoinOf c expectedSha256) handles joins) :
    contactsOf sys joins = [] := by
  induction hjoins with
  | nil => rfl
  | cons hjoin _ ih =>
      obtain ⟨finished, rfl⟩ := hjoin
      exact ih

theorem connectsOf_joins {handles : List (Nat × PeerNode)} {joins : List (Event nodeSignature)}
    (hjoins : List.Forall₂ (JoinOf c expectedSha256) handles joins) : connectsOf joins = [] := by
  induction hjoins with
  | nil => rfl
  | cons hjoin _ ih =>
      obtain ⟨finished, rfl⟩ := hjoin
      rw [← List.singleton_append, connectsOf_append, connectsOf_joined, ih, List.nil_append]

theorem connectsOf_spawns (c : Nat) (expectedSha256 : Bytes) (handles : List (Nat × PeerNode)) :
    connectsOf (handles.map (spawnedEvent c expectedSha256)) = [] := by
  induction handles with
  | nil => rfl
  | cons handle handles ih =>
      rw [List.map_cons, ← List.singleton_append, connectsOf_append, ih, List.append_nil]
      exact connectsOf_spawned handle.1 _

theorem contactsOf_spawns {handles : List (Nat × PeerNode)}
    (hchildren : ∀ handle ∈ handles, ∃ child, sys.tasks[handle.1]? = some child ∧
      connectsOf child.history = [endpoint handle.2]) :
    contactsOf sys (handles.map (spawnedEvent c expectedSha256)) =
      (handles.map Prod.snd).map endpoint := by
  induction handles with
  | nil => rfl
  | cons handle handles ih =>
      have hothers := ih fun other hother => hchildren other (List.mem_cons_of_mem _ hother)
      obtain ⟨child, hchild, hown⟩ := hchildren handle (by simp)
      have hfirst : contactsOf sys [spawnedEvent c expectedSha256 handle] =
          [endpoint handle.2] := by
        simp [contactsOf, spawnedEvent, hchild, hown]
      rw [List.map_cons, List.map_cons, List.map_cons, ← hothers, ← List.singleton_append,
        contactsOf_append, hfirst]
      rfl

theorem exists_joinOf {handles : List (Nat × PeerNode)} {joins : List (Event nodeSignature)}
    (hjoins : List.Forall₂ (JoinOf c expectedSha256) handles joins) :
    (∀ handle ∈ handles, ∃ event ∈ joins, JoinOf c expectedSha256 handle event) ∧
      ∀ event ∈ joins, ∃ handle ∈ handles, JoinOf c expectedSha256 handle event := by
  induction hjoins with
  | nil => exact ⟨nofun, nofun⟩
  | cons hjoin _ ih =>
      simp only [List.mem_cons, forall_eq_or_imp, exists_eq_or_imp]
      exact ⟨⟨Or.inl hjoin, fun handle hmem => Or.inr (ih.1 handle hmem)⟩,
        Or.inl hjoin, fun event hmem => Or.inr (ih.2 event hmem)⟩

namespace Ran

variable (hran : Ran c expectedSha256 selected h)
include hran

theorem spawned {id : Nat} {job : Job} (hmem : .spawned id job ∈ h) :
    (∃ peer ∈ selected, job = .downloadFromPeer c peer expectedSha256) ∧
      ∃ finished, .joined id job finished ∈ h := by
  obtain ⟨handles, joins, asked, rfl, rfl, hjoins, hasked, -⟩ := hran
  simp only [List.mem_append] at hmem ⊢
  rcases hmem with (hspawn | hjoin) | hask
  · obtain ⟨handle, hhandle, heq⟩ := List.mem_map.mp hspawn
    cases heq
    obtain ⟨event, hevent, finished, rfl⟩ := (exists_joinOf hjoins).1 handle hhandle
    exact ⟨⟨handle.2, List.mem_map_of_mem hhandle, rfl⟩, finished, Or.inl (Or.inr hevent)⟩
  · obtain ⟨handle, -, finished, heq⟩ := (exists_joinOf hjoins).2 _ hjoin
    cases heq
  · obtain ⟨x, heq⟩ := hasked _ hask
    cases heq

theorem joined {id : Nat} {job : Job} {finished : Finished nodeSignature}
    (hmem : .joined id job finished ∈ h) :
    (∃ peer ∈ selected, job = .downloadFromPeer c peer expectedSha256) ∧ .spawned id job ∈ h := by
  obtain ⟨handles, joins, asked, rfl, rfl, hjoins, hasked, -⟩ := hran
  simp only [List.mem_append] at hmem ⊢
  rcases hmem with (hspawn | hjoin) | hask
  · obtain ⟨handle, -, heq⟩ := List.mem_map.mp hspawn
    cases heq
  · obtain ⟨handle, hhandle, finished', heq⟩ := (exists_joinOf hjoins).2 _ hjoin
    cases heq
    exact ⟨⟨handle.2, List.mem_map_of_mem hhandle, rfl⟩,
      Or.inl (Or.inl (List.mem_map_of_mem (f := spawnedEvent c expectedSha256) hhandle))⟩
  · obtain ⟨x, heq⟩ := hasked _ hask
    cases heq

theorem adopted_of_joined {id : Nat} {job : Job} {finished : Finished nodeSignature}
    {result : PeerDownloadResult} (hmem : .joined id job finished ∈ h)
    (hfinished : finished.result = JobResult.peerDownload result)
    (hsuccess : result.success = true) : adopted h ≠ none := by
  obtain ⟨⟨peer, -, rfl⟩, -⟩ := hran.joined hmem
  obtain ⟨exchanges, value⟩ := finished
  cases hfinished
  intro hnone
  have hbrought := List.findSome?_eq_none_iff.mp hnone _ hmem
  simp [broughtBy, hsuccess] at hbrought

theorem connectsOf_of_adopted (hadopted : adopted h ≠ none) : connectsOf h = [] := by
  obtain ⟨handles, joins, asked, -, rfl, hjoins, -, hnobody⟩ := hran
  rw [hnobody hadopted, List.append_nil, connectsOf_append, connectsOf_spawns,
    connectsOf_joins hjoins]
  rfl

/-- Once the downloads have been joined, and each of them has connected once, the
contacts are the selected peers and those that the call has asked itself. -/
theorem contactsOf_eq (hended : ∀ id job finished, .joined id job finished ∈ h →
      sys.Ended id job finished)
    (hconnects : ∀ (id : Nat) (child : Task nodeSignature) (peer : PeerNode),
      sys.tasks[id]? = some child →
      child.job = .downloadFromPeer c peer expectedSha256 → child.result? ≠ none →
        connectsOf child.history = [endpoint peer]) :
    contactsOf sys h = selected.map endpoint ++ connectsOf h := by
  obtain ⟨handles, joins, asked, rfl, rfl, hjoins, hasked, -⟩ := hran
  have hchildren : ∀ handle ∈ handles, ∃ child, sys.tasks[handle.1]? = some child ∧
      connectsOf child.history = [endpoint handle.2] := by
    intro handle hhandle
    obtain ⟨event, hevent, finished, rfl⟩ := (exists_joinOf hjoins).1 handle hhandle
    obtain ⟨child, hchild, hjob, hresult, -⟩ := hended handle.1 _ finished
      (List.mem_append_left _ (List.mem_append_right _ hevent))
    exact ⟨child, hchild, hconnects _ child _ hchild hjob (by simp [hresult])⟩
  rw [contactsOf_append, contactsOf_append, contactsOf_spawns hchildren, contactsOf_joins hjoins,
    contactsOf_onlyAsks hasked, connectsOf_append, connectsOf_append, connectsOf_spawns,
    connectsOf_joins hjoins]
  simp

end Ran

end Contacts

end ElioP2P.P2P
