import ElioP2P.Library.Bytes
import ElioP2P.Library.Coroutine
import ElioP2P.Library.Runs
import Mathlib.Order.GameAdd

/-!
# Two coroutines and the byte stream between them

Each end of a connection runs a coroutine on a machine of its own.  Some of the
questions that it asks read from the stream, write to it or close it; the
network may cut both directions into pieces as it likes, but it delivers what
was written, in order.

`Coroutine.Obeys` is a judgement about one end.  Two ends that obey matching
endpoints agree about the whole connection, and as every turn shortens one of
the two coroutines, such a connection comes to its end.
-/

namespace ElioP2P.Library

variable {S : Signature} {α β : Type}

/-! ## One end -/

/-- What a question means for a byte stream, and what its answer says. -/
inductive StreamOp (A : Type) where
  | read (got : A → Bytes)
  | write (bytes : Bytes) (count : A → Nat)
  | close
  | elsewhere

structure Traffic where
  received : Bytes := []
  sent : Bytes := []
  closed : Bool := false

namespace Traffic

def gets (t : Traffic) (bytes : Bytes) : Traffic := { t with received := t.received ++ bytes }

def sends (t : Traffic) (bytes : Bytes) : Traffic := { t with sent := t.sent ++ bytes }

def shut (t : Traffic) : Traffic := { t with closed := true }

def after {A : Type} (t : Traffic) : StreamOp A → A → Traffic
  | .read got, a => t.gets (got a)
  | .write bytes count, a => t.sends (bytes.take (count a))
  | .close, _ => t.shut
  | .elsewhere, _ => t

variable (t : Traffic) (a b : Bytes)

@[simp] theorem gets_received : (t.gets a).received = t.received ++ a := rfl

@[simp] theorem sends_sent : (t.sends a).sent = t.sent ++ a := rfl

@[simp] theorem sends_closed : (t.sends a).closed = t.closed := rfl

@[simp] theorem shut_received : t.shut.received = t.received := rfl

@[simp] theorem gets_nil : t.gets [] = t := by simp [gets]

@[simp] theorem sends_nil : t.sends [] = t := by simp [sends]

@[simp] theorem gets_gets : (t.gets a).gets b = t.gets (a ++ b) := by simp [gets]

@[simp] theorem sends_sends : (t.sends a).sends b = t.sends (a ++ b) := by simp [sends]

end Traffic

structure Party (S : Signature) (α : Type) where
  /-- The shared state of the machine as the party left it. -/
  state : S.State
  frame : S.Frame
  traffic : Traffic
  rest : Coroutine S α

abbrev Port (S : Signature) := (e : S.External) → StreamOp (S.Answer e)

namespace Party

def new (s : S.State) (frame : S.Frame) (c : Coroutine S α) : Party S α :=
  ⟨s, frame, {}, .get fun _ => c⟩

def result? (p : Party S α) : Option α :=
  match p.rest with
  | .done value => some value
  | _ => none

def Closed (p : Party S α) : Prop := p.traffic.closed = true ∨ p.result? ≠ none

def step (port : Port S) (p : Party S α) (s : S.State) (reply : (e : S.External) → S.Answer e) :
    Option (Party S α) :=
  match p.rest with
  | .get next =>
      ((next s).advance s p.frame).map fun (s', frame, rest) => ⟨s', frame, p.traffic, rest⟩
  | .await (.external e) next =>
      ((next (reply e)).advance s p.frame).map fun (s', frame, rest) =>
        ⟨s', frame, p.traffic.after (port e) (reply e), rest⟩
  | _ => none

end Party

/-! ## The network -/

structure Surroundings (S : Signature) where
  finds : S.State → S.State → Prop
  answers : (e : S.External) → S.Answer e → Prop

/-- The party reads what the peer has written, in order; reads and writes may
fail at any time. -/
def Party.Faithful (port : Port S) (A : Surroundings S) (p : Party S α) (peer : Party S β)
    (s : S.State) (reply : (e : S.External) → S.Answer e) : Prop :=
  A.finds p.state s ∧ ∀ e next, p.rest = .await (.external e) next →
    match port e with
    | .read got => p.traffic.received ++ got (reply e) <+: peer.traffic.sent
    | .elsewhere => A.answers e (reply e)
    | .write _ _ | .close => True

/-- Reads and writes move at least one byte, except that a read finds the end
of the stream when the peer has closed it and all has been read, and that a
write to a closed connection may fail. -/
def Party.Unbroken (port : Port S) (p : Party S α) (peer : Party S β)
    (reply : (e : S.External) → S.Answer e) : Prop :=
  ∀ e next, p.rest = .await (.external e) next →
    match port e with
    | .read got => got (reply e) = [] → peer.Closed ∧ p.traffic.received = peer.traffic.sent
    | .write _ count => count (reply e) = 0 → peer.Closed
    | .close | .elsewhere => True

structure Connection (S : Signature) (α β : Type) where
  client : Party S α
  server : Party S β

inductive Turn (S : Signature) where
  | client (s : S.State) (reply : (e : S.External) → S.Answer e)
  | server (s : S.State) (reply : (e : S.External) → S.Answer e)

namespace Connection

def step (port : Port S) (conn : Connection S α β) : Turn S → Option (Connection S α β)
  | .client s reply => (conn.client.step port s reply).map fun p => { conn with client := p }
  | .server s reply => (conn.server.step port s reply).map fun p => { conn with server := p }

def Faithful (port : Port S) (A B : Surroundings S) (conn : Connection S α β) : Turn S → Prop
  | .client s reply => conn.client.Faithful port A conn.server s reply
  | .server s reply => conn.server.Faithful port B conn.client s reply

def Unbroken (port : Port S) (conn : Connection S α β) : Turn S → Prop
  | .client _ reply => conn.client.Unbroken port conn.server reply
  | .server _ reply => conn.server.Unbroken port conn.client reply

end Connection

/-! ## Judgements about one end -/

/-- What one end assumes and promises, in terms of what has gone over it. -/
structure Endpoint (S : Signature) extends Surroundings S where
  /-- What may have come in. -/
  input : Bytes → Prop
  /-- When a read may come back empty. -/
  eof : Traffic → Prop
  /-- When a write may fail. -/
  broken : Traffic → Prop
  /-- Holds where the end waits. -/
  holds : Traffic → S.State → Prop
  /-- Holds where it waits for bytes to come in. -/
  reading : Traffic → Prop
  /-- Whether a section may go on forever. -/
  hangs : Prop

section Judgement

variable (port : Port S) (E : Endpoint S)

def Endpoint.Admits (t : Traffic) (e : S.External) (a : S.Answer e) : Prop :=
  match port e with
  | .read got => E.input (t.received ++ got a) ∧ (got a = [] → E.eof t)
  | .write _ count => count a = 0 → E.broken t
  | .close => True
  | .elsewhere => E.answers e a

def Endpoint.Waits (t : Traffic) (s : S.State) (e : S.External) : Prop :=
  E.holds t s ∧
    match port e with
    | .read got => E.reading t ∧ (∃ a, got a = []) ∧
        ∀ available, available ≠ [] → ∃ a, got a ≠ [] ∧ got a <+: available
    | .write _ count => ∃ a, count a ≠ 0
    | .close => Nonempty (S.Answer e)
    | .elsewhere => ∃ a, E.answers e a

def Coroutine.Obeys (post : Traffic → α → S.State → Prop) :
    Coroutine S α → Traffic → S.State → Prop
  | .done value, t, s => post t value s
  | .diverge, _, _ => E.hangs
  | .raise, _, _ => False
  | .get next, t, s => (next s).Obeys post t s
  | .set s' next, t, _ => next.Obeys post t s'
  | .publish _ next, t, s => next.Obeys post t s
  | .await (.external e) next, t, s =>
      E.Waits port t s e ∧ ∀ (a : S.Answer e) s', E.finds s s' → E.Admits port t e a →
        (next a).Obeys post (t.after (port e) a) s'
  | .await (.spawn _) _, _, _ => False
  | .await (.join _ _) _, _, _ => False

def Party.Obeys (post : Traffic → α → S.State → Prop) (p : Party S α) : Prop :=
  match p.rest with
  | .done value => post p.traffic value p.state
  | .get next => E.holds p.traffic p.state ∧
      ∀ s, E.finds p.state s → (next s).Obeys port E post p.traffic s
  | .await w next => (Coroutine.await w next).Obeys port E post p.traffic p.state
  | _ => False

end Judgement

namespace Coroutine

variable {port : Port S} {E : Endpoint S} {post : Traffic → α → S.State → Prop}
  {t : Traffic} {s : S.State}

theorem Obeys.seq {c : Coroutine S α} {k : α → Coroutine S β}
    {post' : Traffic → β → S.State → Prop} (hc : c.Obeys port E post t s)
    (hk : ∀ t value s, post t value s → (k value).Obeys port E post' t s) :
    (c >>= k).Obeys port E post' t s := by
  change (c.bind k).Obeys port E post' t s
  induction c generalizing t s with
  | done value => exact hk _ _ _ hc
  | diverge => exact hc
  | raise => exact hc.elim
  | get next ih => exact ih s hc
  | set s' next ih => exact ih hc
  | publish f next ih => exact ih hc
  | await w next ih =>
      cases w with
      | external e => exact ⟨hc.1, fun a s' hfinds ha => ih a (hc.2 a s' hfinds ha)⟩
      | spawn job => exact hc
      | join id job => exact hc

theorem Obeys.bind {c : Coroutine S α} {k : α → Coroutine S β}
    {post : Traffic → β → S.State → Prop}
    (hc : c.Obeys port E (fun t value s => (k value).Obeys port E post t s) t s) :
    (c >>= k).Obeys port E post t s :=
  hc.seq fun _ _ _ hk => hk

theorem obeys_ask {e : S.External} {post : Traffic → S.Answer e → S.State → Prop}
    (hwaits : E.Waits port t s e)
    (hpost : ∀ a s', E.finds s s' → E.Admits port t e a → post (t.after (port e) a) a s') :
    (ask e).Obeys port E post t s :=
  ⟨hwaits, hpost⟩

theorem obeys_atomically {f : S.State → Option (α × S.State)} (hhangs : f s = none → E.hangs)
    (hf : ∀ value s', f s = some (value, s') → post t value s') :
    (atomically f).Obeys port E post t s := by
  simp only [atomically, Obeys]
  cases hfs : f s with
  | none => exact hhangs hfs
  | some result => exact hf result.1 result.2 hfs

theorem Obeys.advance {c c' : Coroutine S α} {s' : S.State} {frame frame' : S.Frame}
    (hc : c.Obeys port E post t s) (hrun : c.advance s frame = some (s', frame', c')) :
    (⟨s', frame', t, c'⟩ : Party S α).Obeys port E post := by
  induction c generalizing s frame with
  | done value =>
      cases hrun
      exact hc
  | diverge => cases hrun
  | raise => exact hc.elim
  | get next ih => exact ih s hc hrun
  | set s' next ih => exact ih hc hrun
  | publish f next ih => exact ih hc hrun
  | await w next ih =>
      cases hrun
      exact hc

theorem Obeys.advance_isSome {c : Coroutine S α} (hc : c.Obeys port E post t s)
    (hhangs : ¬E.hangs) (frame : S.Frame) : ∃ result, c.advance s frame = some result := by
  induction c generalizing s frame with
  | done value => exact ⟨_, rfl⟩
  | diverge => exact absurd hc hhangs
  | raise => exact hc.elim
  | get next ih => exact ih s hc frame
  | set s' next ih => exact ih hc frame
  | publish f next ih => exact ih hc (f frame)
  | await w next ih => exact ⟨_, rfl⟩

end Coroutine

namespace Party

variable {port : Port S} {E : Endpoint S} {post : Traffic → α → S.State → Prop}
  {p p' : Party S α} {s : S.State} {reply : (e : S.External) → S.Answer e}

theorem step_cases (h : p.step port s reply = some p') :
    (∃ next, p.rest = .get next ∧ p'.traffic = p.traffic ∧
      (next s).advance s p.frame = some (p'.state, p'.frame, p'.rest)) ∨
    ∃ e next, p.rest = .await (.external e) next ∧
      p'.traffic = p.traffic.after (port e) (reply e) ∧
      (next (reply e)).advance s p.frame = some (p'.state, p'.frame, p'.rest) := by
  unfold step at h
  split at h
  · rename_i next hrest
    obtain ⟨⟨s', frame, rest⟩, hrun, rfl⟩ := Option.map_eq_some_iff.mp h
    exact Or.inl ⟨next, hrest, rfl, hrun⟩
  · rename_i e next hrest
    obtain ⟨⟨s', frame, rest⟩, hrun, rfl⟩ := Option.map_eq_some_iff.mp h
    exact Or.inr ⟨e, next, hrest, rfl, hrun⟩
  · cases h

theorem below_of_step (h : p.step port s reply = some p') : Coroutine.Below p'.rest p.rest := by
  rcases step_cases h with ⟨next, hrest, -, hrun⟩ | ⟨e, next, hrest, -, hrun⟩
  · rw [hrest]
    exact Relation.TransGen.tail' (Coroutine.reflTransGen_of_advance hrun) (.get next s)
  · rw [hrest]
    exact Coroutine.below_of_await hrun

/-- The prepared answers keep a party at its endpoint. -/
theorem Obeys.step (hp : p.Obeys port E post) (hfinds : E.finds p.state s)
    (hadmits : ∀ e next, p.rest = .await (.external e) next →
      E.Admits port p.traffic e (reply e))
    (hstep : p.step port s reply = some p') : p'.Obeys port E post := by
  rcases step_cases hstep with ⟨next, hrest, htraffic, hrun⟩ | ⟨e, next, hrest, htraffic, hrun⟩
  · unfold Obeys at hp
    rw [hrest] at hp
    have hnext := (hp.2 s hfinds).advance hrun
    rwa [← htraffic] at hnext
  · unfold Obeys at hp
    rw [hrest] at hp
    have hnext := (hp.2 (reply e) s hfinds (hadmits e next hrest)).advance hrun
    rwa [← htraffic] at hnext

theorem Obeys.cases (hp : p.Obeys port E post) (hresult : p.result? = none) :
    (∃ next, p.rest = .get next ∧ E.holds p.traffic p.state ∧
      ∀ s, E.finds p.state s → (next s).Obeys port E post p.traffic s) ∨
    ∃ e next, p.rest = .await (.external e) next ∧ E.Waits port p.traffic p.state e ∧
      ∀ (a : S.Answer e) s, E.finds p.state s → E.Admits port p.traffic e a →
        (next a).Obeys port E post (p.traffic.after (port e) a) s := by
  unfold Obeys at hp
  unfold result? at hresult
  split at hp
  · rename_i value hrest
    rw [hrest] at hresult
    cases hresult
  · rename_i next hrest
    exact Or.inl ⟨next, hrest, hp⟩
  · rename_i w next hrest
    cases w with
    | external e => exact Or.inr ⟨e, next, hrest, hp⟩
    | spawn job => exact hp.elim
    | join id job => exact hp.elim
  · exact hp.elim

theorem Obeys.holds (hp : p.Obeys port E post) (hresult : p.result? = none) :
    E.holds p.traffic p.state := by
  rcases hp.cases hresult with ⟨next, -, hholds, -⟩ | ⟨e, next, -, hwaits, -⟩
  · exact hholds
  · exact hwaits.1

theorem Obeys.ends {value : α} (hp : p.Obeys port E post) (hresult : p.result? = some value) :
    post p.traffic value p.state := by
  unfold Obeys at hp
  unfold result? at hresult
  split at hresult
  · rename_i value' hrest
    rw [hrest] at hp
    cases hresult
    exact hp
  · cases hresult

theorem Obeys.always {Q : Traffic → S.State → Prop} (hp : p.Obeys port E post)
    (hholds : ∀ t s, E.holds t s → Q t s) (hpost : ∀ t value s, post t value s → Q t s) :
    Q p.traffic p.state := by
  cases hresult : p.result? with
  | none => exact hholds _ _ (hp.holds hresult)
  | some value => exact hpost _ value _ (hp.ends hresult)

theorem Obeys.of_closed {Q : Traffic → Prop} (hp : p.Obeys port E post) (hclosed : p.Closed)
    (hholds : ∀ t s, E.holds t s → t.closed = true → Q t)
    (hpost : ∀ t value s, post t value s → Q t) : Q p.traffic := by
  cases hresult : p.result? with
  | none =>
      rcases hclosed with hshut | hended
      · exact hholds _ _ (hp.holds hresult) hshut
      · exact absurd hresult hended
  | some value => exact hpost _ value _ (hp.ends hresult)

theorem Obeys.exists_step (hp : p.Obeys port E post) (hhangs : ¬E.hangs)
    (hresult : p.result? = none) (hfinds : E.finds p.state s)
    (hadmits : ∀ e next, p.rest = .await (.external e) next →
      E.Admits port p.traffic e (reply e)) :
    ∃ p', p.step port s reply = some p' := by
  unfold Party.step
  rcases hp.cases hresult with ⟨next, hrest, -, hnext⟩ | ⟨e, next, hrest, -, hnext⟩
  · obtain ⟨result, hrun⟩ := (hnext s hfinds).advance_isSome hhangs p.frame
    rw [hrest]
    exact ⟨_, Option.map_eq_some_iff.mpr ⟨result, hrun, rfl⟩⟩
  · have hadmit := hadmits e next hrest
    obtain ⟨result, hrun⟩ := (hnext (reply e) s hfinds hadmit).advance_isSome hhangs p.frame
    rw [hrest]
    exact ⟨_, Option.map_eq_some_iff.mpr ⟨result, hrun, rfl⟩⟩

variable {peer : Party S β}

/-- What a faithful network brings is admitted if the endpoint is prepared for
what the peer has sent, and for the failures that occur. -/
theorem Faithful.admits (h : p.Faithful port E.toSurroundings peer s reply)
    (hinput : ∀ r, r <+: peer.traffic.sent → E.input r)
    (heof : ∀ e next got, p.rest = .await (.external e) next → port e = .read got →
      got (reply e) = [] → E.eof p.traffic)
    (hbroken : ∀ e next bytes count, p.rest = .await (.external e) next →
      port e = .write bytes count → count (reply e) = 0 → E.broken p.traffic) :
    ∀ e next, p.rest = .await (.external e) next → E.Admits port p.traffic e (reply e) := by
  intro e next hrest
  have hreply := h.2 e next hrest
  unfold Endpoint.Admits
  cases hport : port e with
  | read got =>
      rw [hport] at hreply
      exact ⟨hinput _ hreply, heof e next got hrest hport⟩
  | write bytes count => exact hbroken e next bytes count hrest hport
  | close => trivial
  | elsewhere =>
      rw [hport] at hreply
      exact hreply

/-- In an unbroken connection failures only come from a closed peer. -/
theorem Faithful.admits_unbroken (h : p.Faithful port E.toSurroundings peer s reply)
    (hunbroken : p.Unbroken port peer reply)
    (hinput : ∀ r, r <+: peer.traffic.sent → E.input r)
    (heof : peer.Closed → p.traffic.received = peer.traffic.sent → E.eof p.traffic)
    (hbroken : peer.Closed → E.broken p.traffic) :
    ∀ e next, p.rest = .await (.external e) next → E.Admits port p.traffic e (reply e) := by
  refine h.admits hinput ?_ ?_
  · intro e next got hrest hport hempty
    have hreply := hunbroken e next hrest
    rw [hport] at hreply
    exact heof (hreply hempty).1 (hreply hempty).2
  · intro e next bytes count hrest hport hnone
    have hreply := hunbroken e next hrest
    rw [hport] at hreply
    exact hbroken (hreply hnone)

/-- Where a party waits, an unbroken network has an answer for it, unless it
waits for bytes that have not been written. -/
theorem exists_answer (E : Endpoint S) {e : S.External} {next : S.Answer e → Coroutine S α}
    (hrest : p.rest = .await (.external e) next) (hwaits : E.Waits port p.traffic p.state e)
    (hfinds : E.finds p.state s) (hin : p.traffic.received <+: peer.traffic.sent)
    (hread : E.reading p.traffic → p.traffic.received = peer.traffic.sent → peer.Closed)
    (reply : (e : S.External) → S.Answer e) :
    ∃ reply, p.Faithful port E.toSurroundings peer s reply ∧ p.Unbroken port peer reply := by
  classical
  suffices hanswer : ∃ a : S.Answer e,
      (match port e with
        | .read got => p.traffic.received ++ got a <+: peer.traffic.sent
        | .elsewhere => E.answers e a
        | .write _ _ | .close => True) ∧
      match port e with
        | .read got => got a = [] → peer.Closed ∧ p.traffic.received = peer.traffic.sent
        | .write _ count => count a = 0 → peer.Closed
        | .close | .elsewhere => True by
    obtain ⟨a, hfaithful, hunbroken⟩ := hanswer
    have hself : Function.update reply e a e = a := Function.update_self e a reply
    refine ⟨Function.update reply e a, ⟨hfinds, fun e' next' hrest' => ?_⟩,
      fun e' next' hrest' => ?_⟩
    · rw [hrest] at hrest'
      cases hrest'
      rwa [hself]
    · rw [hrest] at hrest'
      cases hrest'
      rwa [hself]
  have hwait := hwaits.2
  cases hport : port e with
  | read got =>
      rw [hport] at hwait
      obtain ⟨hreading, ⟨a, ha⟩, hsome⟩ := hwait
      obtain ⟨available, havailable⟩ := hin
      by_cases hnil : available = []
      · rw [hnil, List.append_nil] at havailable
        refine ⟨a, ?_, fun _ => ⟨hread hreading havailable, havailable⟩⟩
        simp only
        rw [ha, List.append_nil, havailable]
      · obtain ⟨b, hb, hleads⟩ := hsome available hnil
        refine ⟨b, ?_, fun hb' => absurd hb' hb⟩
        simp only
        rw [← havailable]
        exact (List.prefix_append_right_inj _).mpr hleads
  | write bytes count =>
      rw [hport] at hwait
      obtain ⟨a, ha⟩ := hwait
      exact ⟨a, trivial, fun ha' => absurd ha' ha⟩
  | close =>
      rw [hport] at hwait
      exact ⟨hwait.some, trivial, trivial⟩
  | elsewhere =>
      rw [hport] at hwait
      obtain ⟨a, ha⟩ := hwait
      exact ⟨a, ha, trivial⟩

theorem Obeys.can_move (hp : p.Obeys port E post) (hhangs : ¬E.hangs)
    (hresult : p.result? = none) (hfinds : E.finds p.state s)
    (hin : p.traffic.received <+: peer.traffic.sent)
    (hread : E.reading p.traffic → p.traffic.received = peer.traffic.sent → peer.Closed)
    (hadmits : ∀ reply, p.Faithful port E.toSurroundings peer s reply →
      p.Unbroken port peer reply →
        ∀ e next, p.rest = .await (.external e) next → E.Admits port p.traffic e (reply e))
    (reply : (e : S.External) → S.Answer e) :
    ∃ reply p', p.Faithful port E.toSurroundings peer s reply ∧ p.Unbroken port peer reply ∧
      p.step port s reply = some p' := by
  have hmoves : ∃ reply, p.Faithful port E.toSurroundings peer s reply ∧
      p.Unbroken port peer reply := by
    rcases hp.cases hresult with ⟨next, hrest, -⟩ | ⟨e, next, hrest, hwaits, -⟩
    · refine ⟨reply, ⟨hfinds, fun e' next' hrest' => ?_⟩, fun e' next' hrest' => ?_⟩
      · rw [hrest] at hrest'
        cases hrest'
      · rw [hrest] at hrest'
        cases hrest'
    · exact exists_answer E hrest hwaits hfinds hin hread reply
  obtain ⟨reply, hfaithful, hunbroken⟩ := hmoves
  obtain ⟨p', hstep⟩ := hp.exists_step hhangs hresult hfinds (hadmits reply hfaithful hunbroken)
  exact ⟨reply, p', hfaithful, hunbroken, hstep⟩

end Party

/-! ## Whole connections -/

namespace Connection

variable {port : Port S} {conn conn' : Connection S α β} {turn : Turn S}

theorem step_cases (h : conn.step port turn = some conn') :
    (∃ s reply, turn = .client s reply ∧ conn.client.step port s reply = some conn'.client ∧
      conn'.server = conn.server) ∨
    ∃ s reply, turn = .server s reply ∧ conn.server.step port s reply = some conn'.server ∧
      conn'.client = conn.client := by
  cases turn with
  | client s reply =>
      obtain ⟨p, hp, rfl⟩ := Option.map_eq_some_iff.mp h
      exact Or.inl ⟨s, reply, rfl, hp, rfl⟩
  | server s reply =>
      obtain ⟨p, hp, rfl⟩ := Option.map_eq_some_iff.mp h
      exact Or.inr ⟨s, reply, rfl, hp, rfl⟩

/-- Every turn shortens what is left of one of the two coroutines. -/
theorem inevitable {free allowed : Connection S α β → Turn S → Prop}
    {I Q : Connection S α β → Prop}
    (hkeep : ∀ conn turn conn', I conn → allowed conn turn → conn.step port turn = some conn' →
      I conn')
    (hprogress : ∀ conn, I conn → Q conn ∨
      ∃ turn conn', free conn turn ∧ conn.step port turn = some conn')
    (hI : I conn) : Inevitable (step port) free allowed Q conn := by
  have hwf := (Coroutine.wellFounded_below (S := S) (α := α)).prod_gameAdd
    (Coroutine.wellFounded_below (S := S) (α := β))
  refine inevitable_of_wellFounded hwf (fun conn => (conn.client.rest, conn.server.rest)) ?_
    hkeep hprogress hI
  intro conn turn conn' _ _ hstep
  rcases step_cases hstep with ⟨s, reply, -, hclient, hserver⟩ | ⟨s, reply, -, hserver, hclient⟩
  · simp only [hserver]
    exact .fst (Party.below_of_step hclient)
  · simp only [hclient]
    exact .snd (Party.below_of_step hserver)

structure Agreed (port : Port S) (E F : Endpoint S) (post : Traffic → α → S.State → Prop)
    (post' : Traffic → β → S.State → Prop) (conn : Connection S α β) : Prop where
  client : conn.client.Obeys port E post
  server : conn.server.Obeys port F post'
  toClient : conn.client.traffic.received <+: conn.server.traffic.sent
  toServer : conn.server.traffic.received <+: conn.client.traffic.sent

variable {E F : Endpoint S} {post : Traffic → α → S.State → Prop}
  {post' : Traffic → β → S.State → Prop}

theorem received_after_step {γ δ : Type} {p p' : Party S γ} {peer : Party S δ} {A : Surroundings S}
    {s : S.State} {reply : (e : S.External) → S.Answer e}
    (hin : p.traffic.received <+: peer.traffic.sent) (hfaithful : p.Faithful port A peer s reply)
    (hstep : p.step port s reply = some p') :
    p'.traffic.received <+: peer.traffic.sent ∧ p.traffic.sent <+: p'.traffic.sent := by
  rcases Party.step_cases hstep with ⟨next, -, htraffic, -⟩ | ⟨e, next, hrest, htraffic, -⟩
  · rw [htraffic]
    exact ⟨hin, List.prefix_rfl⟩
  · have hreply := hfaithful.2 e next hrest
    rw [htraffic]
    cases hport : port e with
    | read got =>
        rw [hport] at hreply
        exact ⟨hreply, List.prefix_rfl⟩
    | write bytes count => exact ⟨hin, List.prefix_append _ _⟩
    | close => exact ⟨hin, List.prefix_rfl⟩
    | elsewhere => exact ⟨hin, List.prefix_rfl⟩

/-- A turn with answers that the ends are prepared for keeps the agreement. -/
theorem Agreed.step (h : conn.Agreed port E F post post')
    (hfaithful : conn.Faithful port E.toSurroundings F.toSurroundings turn)
    (hclient : ∀ s reply, turn = .client s reply → ∀ e next,
      conn.client.rest = .await (.external e) next →
        E.Admits port conn.client.traffic e (reply e))
    (hserver : ∀ s reply, turn = .server s reply → ∀ e next,
      conn.server.rest = .await (.external e) next →
        F.Admits port conn.server.traffic e (reply e))
    (hstep : conn.step port turn = some conn') : conn'.Agreed port E F post post' := by
  rcases step_cases hstep with ⟨s, reply, rfl, hp, hsame⟩ | ⟨s, reply, rfl, hp, hsame⟩
  · obtain ⟨hreceived, hsent⟩ := received_after_step h.toClient hfaithful hp
    refine ⟨h.client.step hfaithful.1 (hclient s reply rfl) hp, ?_, ?_, ?_⟩
    · rw [hsame]
      exact h.server
    · rw [hsame]
      exact hreceived
    · rw [hsame]
      exact h.toServer.trans hsent
  · obtain ⟨hreceived, hsent⟩ := received_after_step h.toServer hfaithful hp
    refine ⟨?_, h.server.step hfaithful.1 (hserver s reply rfl) hp, ?_, ?_⟩
    · rw [hsame]
      exact h.client
    · rw [hsame]
      exact h.toClient.trans hsent
    · rw [hsame]
      exact hreceived

/-- Until the client has ended, some turn is possible in an unbroken network,
if the two ends never wait for each other. -/
theorem Agreed.progress (h : conn.Agreed port E F post post') (hE : ¬E.hangs) (hF : ¬F.hangs)
    (hresult : conn.client.result? = none) {s s' : S.State}
    (hs : E.finds conn.client.state s) (hs' : F.finds conn.server.state s')
    (hfree : E.reading conn.client.traffic → F.reading conn.server.traffic →
      conn.server.traffic.received ≠ conn.client.traffic.sent)
    (hclient : ∀ reply, conn.client.Faithful port E.toSurroundings conn.server s reply →
      conn.client.Unbroken port conn.server reply → ∀ e next,
        conn.client.rest = .await (.external e) next →
          E.Admits port conn.client.traffic e (reply e))
    (hserver : ∀ reply, conn.server.Faithful port F.toSurroundings conn.client s' reply →
      conn.server.Unbroken port conn.client reply → ∀ e next,
        conn.server.rest = .await (.external e) next →
          F.Admits port conn.server.traffic e (reply e))
    (reply : (e : S.External) → S.Answer e) :
    ∃ turn conn', conn.Faithful port E.toSurroundings F.toSurroundings turn ∧
      conn.Unbroken port turn ∧ conn.step port turn = some conn' := by
  have hleft : ∀ reply p', conn.client.step port s reply = some p' →
      conn.step port (.client s reply) = some { conn with client := p' } := by
    intro reply p' hp
    simp [Connection.step, hp]
  have hright : ∀ reply p', conn.server.step port s' reply = some p' →
      conn.step port (.server s' reply) = some { conn with server := p' } := by
    intro reply p' hp
    simp [Connection.step, hp]
  by_cases hstuck : E.reading conn.client.traffic ∧
      conn.client.traffic.received = conn.server.traffic.sent ∧ ¬conn.server.Closed
  · obtain ⟨hreading, -, hopen⟩ := hstuck
    have hrunning : conn.server.result? = none := by
      by_contra hended
      exact hopen (Or.inr hended)
    obtain ⟨reply, p', hfaithful, hunbroken, hp⟩ := h.server.can_move hF hrunning hs' h.toServer
      (fun hreading' hall => absurd hall (hfree hreading hreading')) hserver reply
    exact ⟨.server s' reply, _, hfaithful, hunbroken, hright reply p' hp⟩
  · have hread : E.reading conn.client.traffic →
        conn.client.traffic.received = conn.server.traffic.sent → conn.server.Closed := by
      intro hreading hall
      by_contra hopen
      exact hstuck ⟨hreading, hall, hopen⟩
    obtain ⟨reply, p', hfaithful, hunbroken, hp⟩ := h.client.can_move hE hresult hs h.toClient
      hread hclient reply
    exact ⟨.client s reply, _, hfaithful, hunbroken, hleft reply p' hp⟩

end Connection

end ElioP2P.Library
