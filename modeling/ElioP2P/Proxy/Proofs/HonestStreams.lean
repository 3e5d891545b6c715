import ElioP2P.Proxy.Proofs.HonestPeers

/-!
# What honest tasks have written

The streams of a history that the discipline permits: a client has written at
most one message on each, and a connection of the chunk server only what answers
the message that it has read.
-/

namespace ElioP2P.Proxy

open ElioP2P.Library ElioP2P.Library.Coroutine ElioP2P.P2P

section Streams

variable {A : Terms} {job : Job} {h : List (Event nodeSignature)}

theorem streamsOf_concat_cases (h : List (Event nodeSignature)) (event : Event nodeSignature) :
    streamsOf (h ++ [event]) = streamsOf h ∨
    (∃ address port, event.wait = .external (.tcpConnect address port) ∧
      streamsOf (h ++ [event]) = ⟨(streamsOf h).all, {}⟩) ∨
    (∃ n bytes, event = .external (⟨.streamRead n, bytes⟩ : NetExchange) ∧
      streamsOf (h ++ [event]) =
        ⟨(streamsOf h).earlier, (streamsOf h).current.gets bytes.val⟩) ∨
    (∃ bytes count, event = .external (⟨.streamWrite bytes, count⟩ : NetExchange) ∧
      streamsOf (h ++ [event]) =
        ⟨(streamsOf h).earlier, (streamsOf h).current.sends (bytes.take count.val)⟩) ∨
    streamsOf (h ++ [event]) = ⟨(streamsOf h).earlier, (streamsOf h).current.shut⟩ := by
  cases event with
  | spawned id job => exact Or.inl (@streamsOf_concat h (.spawn job) id nofun)
  | joined id job finished => exact Or.inl (@streamsOf_concat h (.join id job) finished nofun)
  | external exchange =>
      obtain ⟨e, answer⟩ := exchange
      cases e with
      | tcpConnect address port =>
          cases answer with
          | true => exact Or.inr (Or.inl ⟨address, port, rfl, streamsOf_connected h address port⟩)
          | false => exact Or.inl (@streamsOf_quiet h (.tcpConnect address port) false rfl)
      | streamRead n =>
          exact Or.inr (Or.inr (Or.inl
            ⟨n, answer, rfl, @streamsOf_quiet h (.streamRead n) answer rfl⟩))
      | streamWrite bytes =>
          exact Or.inr (Or.inr (Or.inr (Or.inl
            ⟨bytes, answer, rfl, @streamsOf_quiet h (.streamWrite bytes) answer rfl⟩)))
      | streamClose =>
          exact Or.inr (Or.inr (Or.inr (Or.inr (@streamsOf_quiet h .streamClose answer rfl))))
      | reserve n => exact Or.inl (@streamsOf_quiet h (.reserve n) answer rfl)
      | sleepFor ms => exact Or.inl (@streamsOf_quiet h (.sleepFor ms) answer rfl)
      | lock access => exact Or.inl (@streamsOf_quiet h (.lock access) answer rfl)
      | headObject bucket key =>
          exact Or.inl (@streamsOf_quiet h (.headObject bucket key) answer rfl)
      | getObject bucket key offset length =>
          exact Or.inl (@streamsOf_quiet h (.getObject bucket key offset length) answer rfl)

theorem stream_concat {k : Nat} {traffic : Traffic} (hk : (streamsOf h).all[k]? = some traffic)
    (event : Event nodeSignature) :
    ∃ traffic', (streamsOf (h ++ [event])).all[k]? = some traffic' ∧
      traffic.sent <+: traffic'.sent := by
  have hcurrent : ∀ {current : Traffic}, (streamsOf h).current.sent <+: current.sent →
      ∃ traffic', (⟨(streamsOf h).earlier, current⟩ : Streams).all[k]? = some traffic' ∧
        traffic.sent <+: traffic'.sent := by
    intro current hsent
    unfold Streams.all at hk ⊢
    rcases Nat.lt_or_ge k (streamsOf h).earlier.length with hlt | hge
    · rw [List.getElem?_append_left hlt] at hk ⊢
      exact ⟨traffic, hk, List.prefix_rfl⟩
    · rw [List.getElem?_append_right hge] at hk ⊢
      obtain ⟨hzero, hlast⟩ := List.getElem?_eq_some_iff.mp hk
      have hk0 : k - (streamsOf h).earlier.length = 0 := by simpa using hzero
      simp only [hk0] at hk ⊢
      cases hk
      exact ⟨current, rfl, hsent⟩
  rcases streamsOf_concat_cases h event with hsame | ⟨address, port, -, hsame⟩ |
    ⟨n, bytes, -, hsame⟩ | ⟨bytes, count, -, hsame⟩ | hsame
  · rw [hsame]
    exact ⟨traffic, hk, List.prefix_rfl⟩
  · rw [hsame]
    refine ⟨traffic, ?_, List.prefix_rfl⟩
    rw [Streams.all, List.getElem?_append_left (List.getElem?_eq_some_iff.mp hk).1]
    exact hk
  · rw [hsame]
    exact hcurrent List.prefix_rfl
  · rw [hsame]
    exact hcurrent (List.prefix_append _ _)
  · rw [hsame]
    exact hcurrent List.prefix_rfl

theorem message_nil (T : Truth) (H : Sha256) : ∃ message, Message T H message ∧ [] <+: message :=
  ⟨_, .request ⟨[], ⟨[], []⟩, 0, 0, false, false⟩, List.nil_prefix⟩

/-- An honest client has written at most one message on each of its streams. -/
theorem message_of_permitted (hpermitted : Permitted A.discipline job h)
    (hjob : job ≠ .chunkConnection) :
    ∀ traffic ∈ (streamsOf h).all, ∃ message, Message A.truth A.hash message ∧
      traffic.sent <+: message := by
  induction h using List.reverseRecOn with
  | nil =>
      intro traffic hmem
      rw [List.mem_singleton.mp hmem]
      exact message_nil _ _
  | append_singleton h event ih =>
      have hearlier := ih hpermitted.front
      have hcurrent : ∀ {current : Traffic}, (∃ message, Message A.truth A.hash message ∧
          current.sent <+: message) → ∀ traffic ∈ (⟨(streamsOf h).earlier, current⟩ : Streams).all,
            ∃ message, Message A.truth A.hash message ∧ traffic.sent <+: message := by
        intro current hnew traffic hmem
        rcases List.mem_append.mp hmem with hold | hlast
        · exact hearlier traffic (List.mem_append_left _ hold)
        · rw [List.mem_singleton.mp hlast]
          exact hnew
      have hopen := hearlier _ (List.mem_append_right _ (List.mem_singleton_self _))
      rcases streamsOf_concat_cases h event with hsame | ⟨address, port, -, hsame⟩ |
        ⟨n, bytes, -, hsame⟩ | ⟨bytes, count, hevent, hsame⟩ | hsame
      · rw [hsame]
        exact hearlier
      · rw [hsame]
        intro traffic hmem
        rcases List.mem_append.mp hmem with hold | hlast
        · exact hearlier traffic hold
        · rw [List.mem_singleton.mp hlast]
          exact message_nil _ _
      · rw [hsame]
        exact hcurrent hopen
      · rw [hsame]
        obtain ⟨s, hwrites⟩ := hpermitted h event [] rfl
        rw [hevent] at hwrites
        have hmay : MaySend A.truth A.hash job (streamsOf h).current.received
            ((streamsOf h).current.sent ++ bytes) := hwrites
        obtain ⟨message, hmessage, hleads⟩ := hmay.message hjob
        refine hcurrent ⟨message, hmessage, List.IsPrefix.trans ?_ hleads⟩
        exact (List.prefix_append_right_inj _).mpr (List.take_prefix _ _)
      · rw [hsame]
        exact hcurrent hopen

/-- An honest chunk server has its one stream, and has written nothing on it or
what answers the message that came in. -/
theorem answers_of_permitted (hpermitted : Permitted A.discipline .chunkConnection h) :
    (streamsOf h).earlier = [] ∧ ((streamsOf h).current.sent = [] ∨
      Answers A.truth A.hash (streamsOf h).current.received (streamsOf h).current.sent) := by
  induction h using List.reverseRecOn with
  | nil => exact ⟨rfl, Or.inl rfl⟩
  | append_singleton h event ih =>
      obtain ⟨hone, hsent⟩ := ih hpermitted.front
      obtain ⟨s, hasked⟩ := hpermitted h event [] rfl
      rcases streamsOf_concat_cases h event with hsame | ⟨address, port, hwait, -⟩ |
        ⟨n, bytes, -, hsame⟩ | ⟨bytes, count, hevent, hsame⟩ | hsame
      · rw [hsame]
        exact ⟨hone, hsent⟩
      · rw [hwait] at hasked
        exact absurd rfl hasked
      · rw [hsame]
        exact ⟨hone,
          hsent.imp_right fun hanswers => hanswers.received_mono (List.prefix_append _ _)⟩
      · rw [hsame]
        rw [hevent] at hasked
        have hmay : Answers A.truth A.hash (streamsOf h).current.received
            ((streamsOf h).current.sent ++ bytes) := hasked
        refine ⟨hone, Or.inr (hmay.mono ?_)⟩
        exact (List.prefix_append_right_inj _).mpr (List.take_prefix _ _)
      · rw [hsame]
        exact ⟨hone, hsent⟩

end Streams

end ElioP2P.Proxy
