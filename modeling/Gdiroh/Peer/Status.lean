/-
Whether `IrohPeer`'s status tells the truth. `poll` takes all events out of
the session and then handles them one by one, also those after the `Closed`
that made it let go of the session. And a session can say `Ready` after its
`Closed`: when the connection to the host ends before the session task has
taken the `Welcome` that its reader passed on. The peer is then connected,
under an id, to nothing (`connected_to_nothing`).

`truthful_iff` says exactly when the status is right after every call: when
no poll takes a batch in which a `Ready` has the last word over a `Closed`.
-/
import Gdiroh.Peer.Calls

namespace Gdiroh
open Session BigEndian Framing

/-- What an event says of the session: that it is up, or that it is over. -/
def Session.Event.word : Event → Option Bool
  | .ready _ => some true
  | .closed _ => some false
  | _ => none

def lastWord (events : List Event) : Option Bool := (events.filterMap Event.word).getLast?

/-- There is a `Closed`, and after the last one a `Ready`. -/
def Late (events : List Event) : Prop := hasClosed events = true ∧ lastWord events = some true

instance (events : List Event) : Decidable (Late events) := inferInstanceAs (Decidable (_ ∧ _))

namespace Front

/-- The status is right. -/
def Truthful (p : Front) : Prop :=
  (p.status = .disconnected ↔ p.session = none) ∧ (p.session = none → p.uniqueId = 0)

inductive Call where
  | host (bound registered running : Bool)
  | join (valid bound itself running : Bool)
  | joinTicket (valid bound itself running : Bool)
  | close
  | poll
  /-- The session moves on by itself. -/
  | session (a : Life.Act)

def step (p : Front) : Call → Option Front
  | .host bound registered running => some (p.host bound registered running).1
  | .join valid bound itself running => some (p.join valid bound itself running).1
  | .joinTicket valid bound itself running => some (p.joinTicket valid bound itself running).1
  | .close => some p.close
  | .poll => some p.poll
  | .session a => p.session.bind fun h => (h.step a).map fun h => { p with session := some h }

/-- A poll takes no batch that is late. -/
def Punctual (p : Front) : Call → Prop
  | .poll => ¬ Late p.waiting
  | _ => True

instance (p : Front) : ∀ a, Decidable (p.Punctual a)
  | .poll => inferInstanceAs (Decidable (¬ _))
  | .host .. | .join .. | .joinTicket .. | .close | .session _ => isTrue trivial

/-! ## A batch -/

/-- What a batch leaves of a peer that has a session. -/
theorem handles_session (events : List Event) (p : Front) :
    (events.foldl handle p).session = if hasClosed events = true then none else p.session := by
  induction events using List.reverseRecOn with
  | nil => rfl
  | append_singleton es e ih =>
    rw [List.foldl_append, List.foldl_cons, List.foldl_nil, hasClosed_append]
    cases e with
    | closed reason => simp [handle, hasClosed, Event.isClosed]
    | _ => simpa [handle, emit, hasClosed, Event.isClosed] using ih

theorem lastWord_concat (es : List Event) (e : Event) : lastWord (es ++ [e]) = e.word.or (lastWord es) := by
  unfold lastWord
  cases h : e.word with
  | none => simp [List.filterMap_append, h]
  | some b => simp [List.filterMap_append, h]

/-- The last word decides the status. -/
theorem handles_status (events : List Event) (p : Front) :
    match lastWord events with
    | none => (events.foldl handle p).status = p.status ∧ (events.foldl handle p).uniqueId = p.uniqueId
    | some true => (events.foldl handle p).status = .connected
    | some false => (events.foldl handle p).status = .disconnected ∧ (events.foldl handle p).uniqueId = 0 := by
  induction events using List.reverseRecOn with
  | nil => exact ⟨rfl, rfl⟩
  | append_singleton es e ih =>
    rw [List.foldl_append, List.foldl_cons, List.foldl_nil, lastWord_concat]
    cases e with
    | ready id => rfl
    | closed reason => exact ⟨rfl, rfl⟩
    | _ => exact ih

theorem hasClosed_eq_true {events : List Event} : hasClosed events = true ↔ ∃ reason, .closed reason ∈ events := by
  simp only [hasClosed, List.any_eq_true]
  constructor
  · rintro ⟨e, he, hc⟩
    cases e with
    | closed reason => exact ⟨reason, he⟩
    | _ => simp [Event.isClosed] at hc
  · rintro ⟨reason, he⟩
    exact ⟨_, he, rfl⟩

theorem lastWord_ne_none {events : List Event} (h : hasClosed events = true) : lastWord events ≠ none := by
  obtain ⟨reason, he⟩ := hasClosed_eq_true.1 h
  intro hn
  have hmem : false ∈ events.filterMap Event.word := List.mem_filterMap.2 ⟨_, he, rfl⟩
  rw [List.getLast?_eq_none_iff.1 hn] at hmem
  simp at hmem

theorem hasClosed_of_lastWord {events : List Event} (h : lastWord events = some false) : hasClosed events = true := by
  obtain ⟨e, he, hword⟩ := List.mem_filterMap.1 (List.mem_of_getLast? h)
  cases e with
  | closed reason => exact hasClosed_eq_true.2 ⟨reason, he⟩
  | _ => simp [Event.word] at hword

/-- After a batch, the status is right exactly when the batch is not late. -/
theorem truthful_handles {p : Front} (hsession : p.session ≠ none) (hstatus : p.status ≠ .disconnected)
    (events : List Event) : Truthful (events.foldl handle p) ↔ ¬ Late events := by
  have hs := handles_session events p
  have hw := handles_status events p
  unfold Truthful Late
  cases hlast : lastWord events with
  | none =>
    have hno : hasClosed events ≠ true := fun hc => lastWord_ne_none hc hlast
    rw [if_neg hno] at hs
    simp only [hlast] at hw
    simp [hs, hw.1, hsession, hstatus]
  | some up =>
    cases up with
    | true =>
      simp only [hlast] at hw
      by_cases hc : hasClosed events = true
      · rw [if_pos hc] at hs
        simp [hs, hw, hc]
      · rw [if_neg hc] at hs
        simp [hs, hw, hc, hsession]
    | false =>
      simp only [hlast] at hw
      rw [if_pos (hasClosed_of_lastWord hlast)] at hs
      simp [hs, hw.1, hw.2]

/-! ## The calls -/

theorem truthful_started {p : Front} {h : SessionHandle} {id : Int32} :
    Truthful { p with session := some h, uniqueId := id, status := .connecting } := by
  simp [Truthful]

theorem truthful_join {p : Front} (h : Truthful p) (valid bound itself running : Bool) :
    Truthful (p.join valid bound itself running).1 := by
  unfold join startJoin
  split
  · exact h
  split
  · exact h
  split
  · exact h
  · exact truthful_started

/-- **One call.** After a call the status is right exactly when the call is
no poll of a late batch. -/
theorem truthful_step {p p' : Front} {a : Call} (h : Truthful p) (hs : step p a = some p') :
    Truthful p' ↔ Punctual p a := by
  cases a with
  | host bound registered running =>
    rw [← Option.some.inj hs]
    refine iff_of_true ?_ trivial
    unfold host
    split
    · exact h
    · exact truthful_started
  | join valid bound itself running =>
    rw [← Option.some.inj hs]
    exact iff_of_true (truthful_join h valid bound itself running) trivial
  | joinTicket valid bound itself running =>
    rw [← Option.some.inj hs]
    exact iff_of_true (truthful_join h valid bound itself running) trivial
  | close =>
    rw [← Option.some.inj hs]
    refine iff_of_true ?_ trivial
    simp [Truthful, close]
  | poll =>
    rw [← Option.some.inj hs]
    unfold poll
    by_cases hnone : p.session = none
    · have hwaiting : p.waiting = [] := by simp [waiting, hnone]
      have hdrain : p.drain = p := by
        rw [drain, hnone, Option.map_none, ← hnone]
      rw [hwaiting, hdrain]
      refine iff_of_true h ?_
      rw [Punctual, hwaiting]
      decide
    · refine truthful_handles ?_ ?_ p.waiting
      · simpa [drain] using hnone
      · exact fun hd => hnone (h.1.1 hd)
  | session b =>
    simp only [step, Option.bind_eq_some_iff, Option.map_eq_some_iff] at hs
    obtain ⟨handle, hheld, handle', -, rfl⟩ := hs
    refine iff_of_true ?_ trivial
    simpa [Truthful, hheld] using h

theorem truthful_init : Truthful {} := by simp [Truthful]

/-- **The status is right exactly when no batch is late.** For every sequence
of calls, against everything the sessions can do in between: after every
call the peer is disconnected if and only if it has no session, and then it
has no id, if and only if no poll of the sequence takes a batch in which a
`Closed` is followed by a `Ready` and by no further `Closed`. -/
theorem truthful_iff {as : List Call} {p : Front} (h : Machine.run step {} as = some p) :
    (∀ bs q, bs <+: as → Machine.run step {} bs = some q → Truthful q) ↔ Machine.Along step Punctual {} as :=
  Machine.invariant_iff_along (fun _ _ _ ht hs => truthful_step ht hs) h truthful_init

/-- A client's session: its host answers and welcomes it. -/
def welcomedClient : List Call := .session (.connected 0) :: Tasks.welcomed.map fun a => .session (.act a)

/-- A client joins, is welcomed, loses its host, and polls. -/
def joinAndLose : List Call :=
  .join true true false true :: welcomedClient ++ [.poll] ++ Tasks.hostLost.map (fun a => .session (.act a)) ++ [.poll]

theorem truthful_iff_joinAndLose :
    ∃ p, Machine.run step {} joinAndLose = some p ∧ p.emitted = [.peerConnected 1, .peerDisconnected 1] ∧ Truthful p := by
  have hrun : ((Machine.run step {} joinAndLose).map (·.emitted)) = some [.peerConnected 1, .peerDisconnected 1] := by
    decide +kernel
  obtain ⟨p, hp, he⟩ := Option.map_eq_some_iff.1 hrun
  have hG : Machine.Along step Punctual {} joinAndLose := by decide +kernel
  exact ⟨p, hp, he, (truthful_iff hp).2 hG _ p (List.prefix_refl _) hp⟩

/-- A client's connection ends while its reader has the `Welcome` at hand:
the loss is reported first. -/
def lostFirst : List Tasks.Action :=
  Tasks.welcomed.take 3 ++ [.watch 0, .arrive (.frame 0), .turn (.internal []), .tick, .tick, .tick,
    .turn (.internal []), .tick, .tick]

def joinLostFirst : List Call :=
  .join true true false true :: .session (.connected 0) :: lostFirst.map (fun a => .session (.act a)) ++ [.poll]

/-- **Connected to nothing.** -/
theorem connected_to_nothing :
    ∃ p, Machine.run step {} joinLostFirst = some p ∧ p.session.isNone ∧ p.status = .connected ∧ p.uniqueId = 2 ∧
      ¬ Truthful p := by
  have hrun : ((Machine.run step {} joinLostFirst).map fun p => (p.session.isNone, p.status, p.uniqueId)) =
      some (true, .connected, 2) := by
    decide +kernel
  obtain ⟨p, hp, he⟩ := Option.map_eq_some_iff.1 hrun
  simp only [Prod.mk.injEq] at he
  refine ⟨p, hp, he.1, he.2.1, he.2.2, fun ht => ?_⟩
  have hid := ht.2 (by simpa using he.1)
  rw [he.2.2] at hid
  exact absurd hid (by decide)

end Front
end Gdiroh
