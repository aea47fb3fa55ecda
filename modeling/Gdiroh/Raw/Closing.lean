/-
Whether a raw connection's `Closed` comes last. The pump's three tasks write
to one queue, and what had arrived when the connection ended is still handed
to two of them, while the third reports the end as soon as it sees it. A
datagram read before the end can so be queued after the `Closed`, and is lost
with the queue when `IrohConnection` handles that (`datagram_after_closed`).

`closed_is_last` says when `Closed` does come last, and everything that
arrived is seen before it: when the watcher reports only once the other two
have passed on all that arrived.
-/
import Gdiroh.Raw.Connection

namespace Gdiroh.Raw

def Event.isClosed : Event → Bool
  | .closed _ => true
  | _ => false

def hasClosed (events : List Event) : Bool := events.any Event.isClosed

@[simp] theorem hasClosed_append (xs ys : List Event) : hasClosed (xs ++ ys) = (hasClosed xs || hasClosed ys) := by
  simp [hasClosed]

/-- A `Closed` stands nowhere but at the end. -/
def ClosedLast (events : List Event) : Prop := hasClosed events.dropLast = false

instance (events : List Event) : Decidable (ClosedLast events) := inferInstanceAs (Decidable (_ = false))

theorem closedLast_of_not {events : List Event} (h : hasClosed events = false) : ClosedLast events := by
  simp only [ClosedLast, hasClosed, List.any_eq_false] at h ⊢
  exact fun e he => h e (List.mem_of_mem_dropLast he)

theorem ClosedLast.concat {events : List Event} (h : hasClosed events = false) (e : Event) :
    ClosedLast (events ++ [e]) := by
  rw [ClosedLast, List.dropLast_concat]
  exact h

theorem ClosedLast.eq_nil {before after : List Event} {reason : String}
    (h : ClosedLast (before ++ .closed reason :: after)) : after = [] := by
  by_contra hne
  rw [ClosedLast, List.dropLast_append_of_ne_nil (by simp), List.dropLast_cons_of_ne_nil hne] at h
  simp [hasClosed, Event.isClosed] at h

def streamsOf (events : List Event) : List Nat := events.filterMap fun
  | .stream id => some id
  | _ => none

def datagramsOf (events : List Event) : List Bytes := events.filterMap fun
  | .datagram data => some data
  | _ => none

/-- What a task has taken and not sent on. -/
def Hand.items {α : Type} : Hand α → List α
  | .holding x => [x]
  | _ => []

namespace Conn

/-- Nothing that arrived is still to be sent on. -/
structure Through (c : Conn) : Prop where
  streams : c.streams = []
  datagrams : c.datagrams = []
  acceptor : c.acceptor.items = []
  reader : c.reader.items = []

instance (c : Conn) : Decidable c.Through :=
  decidable_of_iff (c.streams = [] ∧ c.datagrams = [] ∧ c.acceptor.items = [] ∧ c.reader.items = [])
    ⟨fun ⟨h₁, h₂, h₃, h₄⟩ => ⟨h₁, h₂, h₃, h₄⟩, fun ⟨h₁, h₂, h₃, h₄⟩ => ⟨h₁, h₂, h₃, h₄⟩⟩

/-- The watcher reports when everything that arrived is through. -/
def Patient (c : Conn) : Act → Prop
  | .watch => c.object.events.isSome = true → c.Through
  | _ => True

instance (c : Conn) : ∀ a, Decidable (c.Patient a)
  | .watch => inferInstanceAs (Decidable (_ → _))
  | .answered | .refused _ | .opened | .pump | .stream _ | .datagram _ | .ends _ | .accept | .queueStream
  | .stopAccepting | .read | .queueDatagram | .stopReading | .drain | .recv | .openStream | .streamOpened
  | .close _ | .drop => isTrue trivial

/-! ## The invariant -/

/-- What was queued, and what the object has seen of it. -/
structure Seen (o : IrohConnection) (sent : List Event) : Prop where
  waiting : ∀ queue, o.events = some queue → sent = o.handled ++ queue ∧ hasClosed o.handled = false
  gone : o.events = none → hasClosed o.handled = true → o.handled = sent

/-- Everything that arrived is sent, in hand or waiting, for as long as
sends go through. -/
def Conserved (c : Conn) : Prop :=
  streamsOf c.arrived = streamsOf c.sent ++ c.acceptor.items ++ c.streams ∧
    datagramsOf c.arrived = datagramsOf c.sent ++ c.reader.items ++ c.datagrams

structure Orderly (c : Conn) : Prop where
  last : ClosedLast c.sent
  /-- After a `Closed`, nothing is left that could send. -/
  closed : hasClosed c.sent = true →
    c.Through ∧ c.watcher = false ∧ c.dial = .over ∧ (c.established = true → c.ended.isSome = true)
  conserved : c.object.events.isSome = true ∨ hasClosed c.sent = true → c.Conserved
  seen : Seen c.object c.sent
  /-- Before the pump. -/
  early : c.dial ≠ .over → c.acceptor = .off ∧ c.reader = .off ∧ c.watcher = false
  unconnected : c.dial = .dialling → c.established = false
  unestablished : c.established = false → c.Through

theorem orderly_dialled (running tree : Bool) : Orderly (dialled running tree) := by
  cases running with
  | true =>
    refine ⟨rfl, by simp [dialled, hasClosed], fun _ => ⟨rfl, rfl⟩, ⟨?_, ?_⟩, fun _ => ⟨rfl, rfl, rfl⟩, fun _ => rfl,
      fun _ => ⟨rfl, rfl, rfl, rfl⟩⟩
    · intro queue hq
      obtain rfl := Option.some.inj hq
      exact ⟨rfl, rfl⟩
    · simp [dialled]
  | false =>
    refine ⟨rfl, fun _ => ⟨⟨rfl, rfl, rfl, rfl⟩, rfl, rfl, fun h => by simp [dialled] at h⟩, fun _ => ⟨rfl, rfl⟩,
      ⟨?_, ?_⟩, fun h => absurd rfl h, fun h => by simp [dialled] at h, fun _ => ⟨rfl, rfl, rfl, rfl⟩⟩
    · intro queue hq
      obtain rfl := Option.some.inj hq
      exact ⟨rfl, rfl⟩
    · simp [dialled]

theorem orderly_accepted (running tree : Bool) : Orderly (accepted running tree) := by
  have hitems : (accepted running tree).acceptor.items = [] ∧ (accepted running tree).reader.items = [] := by
    cases running with
    | true => exact ⟨rfl, rfl⟩
    | false => exact ⟨rfl, rfl⟩
  refine ⟨rfl, by simp [accepted, hasClosed], fun _ => ?_, ⟨?_, ?_⟩, fun h => absurd rfl h,
    fun h => by simp [accepted] at h, fun h => by simp [accepted] at h⟩
  · rw [Conserved, hitems.1, hitems.2]
    exact ⟨rfl, rfl⟩
  · intro queue hq
    obtain rfl := Option.some.inj hq
    exact ⟨rfl, rfl⟩
  · simp [accepted]

/-! ## What the object sees -/

theorem Seen.send {c : Conn} (h : Seen c.object c.sent) (e : Event) : Seen (c.send e).object (c.send e).sent := by
  cases hev : c.object.events with
  | none =>
    rw [Conn.send, hev]
    exact h
  | some queue =>
    obtain ⟨hsent, hno⟩ := h.waiting queue hev
    refine ⟨fun queue' hq => ?_, fun hnone => ?_⟩
    · rw [send_events, hev, Option.map_some] at hq
      obtain rfl := Option.some.inj hq
      rw [send_handled, send_sent, hev, hsent]
      exact ⟨by simp, hno⟩
    · rw [send_events, hev] at hnone
      simp at hnone

/-- Handling a batch. -/
theorem handles_seen (pending : List Event) (o : IrohConnection) :
    (pending.foldl IrohConnection.handle o).handled = o.handled ++ pending ∧
      (pending.foldl IrohConnection.handle o).events = if hasClosed pending then none else o.events := by
  induction pending generalizing o with
  | nil => exact ⟨by simp, rfl⟩
  | cons e pending ih =>
    obtain ⟨hhandled, hevents⟩ := ih (o.handle e)
    rw [List.foldl_cons, hhandled, hevents]
    cases e with
    | closed reason => simp [IrohConnection.handle, IrohConnection.emitLater, hasClosed, Event.isClosed]
    | _ => simp [IrohConnection.handle, IrohConnection.emitLater, hasClosed, Event.isClosed]

theorem Seen.drainPending {o : IrohConnection} {sent : List Event} (h : Seen o sent) : Seen o.drainPending sent := by
  unfold IrohConnection.drainPending
  cases hev : o.events with
  | none => exact h
  | some pending =>
    obtain ⟨hsent, hno⟩ := h.waiting pending hev
    obtain ⟨hhandled, hevents⟩ := handles_seen pending { o with events := some [] }
    refine ⟨fun queue hq => ?_, fun _ _ => ?_⟩
    · simp only [hevents] at hq
      split at hq
      · simp at hq
      · next hclosed =>
        obtain rfl := Option.some.inj hq
        simp only [hhandled]
        rw [hsent]
        exact ⟨by simp, by simpa [hno] using hclosed⟩
    · simp only [hhandled]
      exact hsent.symm

theorem Seen.recvBlocking {o o' : IrohConnection} {sent : List Event} (h : Seen o sent) (hlast : ClosedLast sent)
    (hs : o.recvBlocking = some o') : Seen o' sent := by
  unfold IrohConnection.recvBlocking at hs
  split at hs
  · next data rest hev =>
    obtain ⟨hsent, hno⟩ := h.waiting _ hev
    rw [← Option.some.inj hs]
    refine ⟨fun queue hq => ?_, by simp⟩
    obtain rfl := Option.some.inj hq
    refine ⟨by simpa using hsent, ?_⟩
    simp [hno]
    rfl
  · next e rest _ hev =>
    obtain ⟨hsent, hno⟩ := h.waiting _ hev
    obtain ⟨hhandled, hevents⟩ := handles_seen [e] { o with events := some rest }
    rw [List.foldl_cons, List.foldl_nil] at hhandled hevents
    rw [← Option.some.inj hs]
    refine ⟨fun queue hq => ?_, fun hnone hclosed => ?_⟩
    · rw [hevents] at hq
      split at hq
      · simp at hq
      · next hc =>
        obtain rfl := Option.some.inj hq
        rw [hhandled]
        refine ⟨by simpa using hsent, ?_⟩
        simpa [hno] using hc
    · rw [hhandled, hsent]
      rw [hsent] at hlast
      cases e with
      | closed reason => rw [hlast.eq_nil]
      | _ => simp [IrohConnection.handle, IrohConnection.emitLater] at hnone
  · simp at hs

theorem Seen.close {o : IrohConnection} {sent : List Event} (h : Seen o sent) : Seen o.close sent := by
  refine ⟨fun queue hq => by simp [IrohConnection.close] at hq, fun _ hclosed => ?_⟩
  have hclosed : hasClosed o.handled = true := hclosed
  cases hev : o.events with
  | none => exact h.gone hev hclosed
  | some queue =>
    have hno := (h.waiting queue hev).2
    rw [hno] at hclosed
    simp at hclosed

/-! ## One step -/

/-- As long as somebody may still send, there was no `Closed`. -/
theorem Orderly.not_closed {c : Conn} (h : Orderly c)
    (hleft : c.Through → c.watcher = false → c.dial = .over → (c.established = true → c.ended.isSome = true) → False) :
    hasClosed c.sent = false := by
  by_contra hc
  obtain ⟨hthrough, hwatcher, hdial, hended⟩ := h.closed (by simpa using hc)
  exact hleft hthrough hwatcher hdial hended

theorem closedLast_send {c : Conn} (h : hasClosed c.sent = false) (e : Event) : ClosedLast (c.send e).sent := by
  rw [send_sent]
  split
  · exact .concat h e
  · exact closedLast_of_not h

theorem not_closed_send {c : Conn} (h : hasClosed c.sent = false) {e : Event} (he : e.isClosed = false) :
    hasClosed (c.send e).sent = false := by
  rw [send_sent]
  split
  · rw [hasClosed_append, h]
    simp [hasClosed, he]
  · exact h

/-- Sending what is neither a stream nor a datagram. -/
theorem conserved_send {c : Conn} (h : c.object.events.isSome = true ∨ hasClosed c.sent = true → c.Conserved) {e : Event}
    (he : streamsOf [e] = [] ∧ datagramsOf [e] = [])
    (hs : (c.send e).object.events.isSome = true ∨ hasClosed (c.send e).sent = true) : (c.send e).Conserved := by
  cases hev : c.object.events with
  | none =>
    rw [Conn.send, hev] at hs ⊢
    exact h hs
  | some queue =>
    obtain ⟨hstreams, hdatagrams⟩ := h (.inl (by rw [hev]; rfl))
    have hsent : (c.send e).sent = c.sent ++ [e] := by simp [hev]
    simp only [Conserved, hsent, streamsOf, datagramsOf, List.filterMap_append, send_arrived, send_acceptor,
      send_reader, send_streams, send_datagrams] at he hstreams hdatagrams ⊢
    rw [he.1, he.2]
    exact ⟨by simpa using hstreams, by simpa using hdatagrams⟩

theorem Through.same {c c' : Conn} (h : c.Through) (hstreams : c'.streams = c.streams)
    (hdatagrams : c'.datagrams = c.datagrams) (hacceptor : c'.acceptor = c.acceptor) (hreader : c'.reader = c.reader) :
    c'.Through := by
  refine ⟨?_, ?_, ?_, ?_⟩
  · rw [hstreams, h.streams]
  · rw [hdatagrams, h.datagrams]
  · rw [hacceptor, h.acceptor]
  · rw [hreader, h.reader]

theorem orderly_answered {c : Conn} (h : Orderly c) (hd : c.dial = .dialling) :
    Orderly { c with dial := .connected, established := true } := by
  have hno : hasClosed c.sent = false := h.not_closed fun _ _ hover _ => by simp [hd] at hover
  refine ⟨h.last, fun hc => ?_, h.conserved, h.seen, fun _ => h.early (by simp [hd]), by simp, by simp⟩
  have hc : hasClosed c.sent = true := hc
  simp [hno] at hc

theorem orderly_refused {c : Conn} (h : Orderly c) (hd : c.dial = .dialling) (text : String) :
    Orderly ({ c with dial := .over }.send (.closed text)) := by
  have hno : hasClosed c.sent = false := h.not_closed fun _ _ hover _ => by simp [hd] at hover
  have hest := h.unconnected hd
  have hthrough := h.unestablished hest
  have hthrough' : ({ c with dial := .over }.send (.closed text)).Through :=
    hthrough.same (by simp) (by simp) (by simp) (by simp)
  refine ⟨closedLast_send (by exact hno) _, fun _ => ⟨hthrough', ?_, by simp, by simp [hest]⟩,
    conserved_send (by exact h.conserved) ⟨rfl, rfl⟩, Seen.send (by exact h.seen) _, by simp, by simp, fun _ => hthrough'⟩
  simpa using (h.early (by simp [hd])).2.2

theorem orderly_opened {c : Conn} (h : Orderly c) (hd : c.dial = .connected) :
    Orderly ({ c with dial := if c.object.events.isSome then .sent else .over }.send .opened) := by
  have hno : hasClosed c.sent = false := h.not_closed fun _ _ hover _ => by simp [hd] at hover
  refine ⟨closedLast_send (by exact hno) _, fun hc => ?_, conserved_send (by exact h.conserved) ⟨rfl, rfl⟩,
    Seen.send (by exact h.seen) _, fun _ => ?_, ?_, fun hest => ?_⟩
  · rw [not_closed_send (by exact hno) rfl] at hc
    simp at hc
  · simpa using h.early (by simp [hd])
  · intro hdial
    rw [send_dial] at hdial
    split at hdial
    · simp at hdial
    · simp at hdial
  · refine (h.unestablished ?_).same (by simp) (by simp) (by simp) (by simp)
    simpa using hest

theorem orderly_pump {c : Conn} (h : Orderly c) (hd : c.dial = .sent) :
    Orderly { c with dial := .over, acceptor := .waiting, reader := .waiting, watcher := true } := by
  have hno : hasClosed c.sent = false := h.not_closed fun _ _ hover _ => by simp [hd] at hover
  obtain ⟨hacceptor, hreader, -⟩ := h.early (by simp [hd])
  refine ⟨h.last, fun hc => ?_, fun hc => ?_, h.seen, by simp, by simp, fun hest => ?_⟩
  · have hc : hasClosed c.sent = true := hc
    simp [hno] at hc
  · have := h.conserved hc
    rw [Conserved, hacceptor, hreader] at this
    exact this
  · exact ⟨(h.unestablished hest).streams, (h.unestablished hest).datagrams, rfl, rfl⟩

/-- Something arrives on the open connection. -/
theorem orderly_arrives {c : Conn} (h : Orderly c) (ho : c.isOpen = true) (e : Event) :
    Orderly { c with
      streams := c.streams ++ streamsOf [e]
      datagrams := c.datagrams ++ datagramsOf [e]
      arrived := c.arrived ++ [e] } := by
  simp only [isOpen, Bool.and_eq_true, Option.isNone_iff_eq_none] at ho
  have hno : hasClosed c.sent = false := h.not_closed fun _ _ _ hended => by simp [ho.1.1, ho.1.2] at hended
  refine ⟨h.last, fun hc => ?_, fun hc => ?_, h.seen, h.early, h.unconnected, fun hest => ?_⟩
  · have hc : hasClosed c.sent = true := hc
    simp [hno] at hc
  · obtain ⟨h₁, h₂⟩ := h.conserved hc
    simp only [Conserved, streamsOf, datagramsOf, List.filterMap_append] at h₁ h₂ ⊢
    rw [h₁, h₂]
    exact ⟨by simp, by simp⟩
  · have hest : c.established = false := hest
    simp [ho.1.1] at hest

/-- A task takes something, or ends; the connection may end too. -/
theorem Orderly.moves {c : Conn} (h : Orderly c) {a : Hand Nat} {r : Hand Bytes} {streams : List Nat}
    {datagrams : List Bytes} {ended : Option String} {opening : Nat}
    (hstreams : a.items ++ streams = c.acceptor.items ++ c.streams)
    (hdatagrams : r.items ++ datagrams = c.reader.items ++ c.datagrams) (ha : c.acceptor = .off → a = .off)
    (hr : c.reader = .off → r = .off) (hended : c.ended.isSome = true → ended.isSome = true) :
    Orderly { c with acceptor := a, reader := r, streams, datagrams, ended, opening } := by
  have hthrough : c.Through → { c with acceptor := a, reader := r, streams, datagrams, ended, opening }.Through := by
    intro ht
    rw [ht.acceptor, ht.streams, List.append_nil, List.append_eq_nil_iff] at hstreams
    rw [ht.reader, ht.datagrams, List.append_nil, List.append_eq_nil_iff] at hdatagrams
    exact ⟨hstreams.2, hdatagrams.2, hstreams.1, hdatagrams.1⟩
  refine ⟨h.last, fun hc => ?_, fun hc => ?_, h.seen, fun hd => ?_, h.unconnected, fun hest => ?_⟩
  · obtain ⟨ht, hw, hd, he⟩ := h.closed hc
    exact ⟨hthrough ht, hw, hd, fun hest => hended (he hest)⟩
  · obtain ⟨h₁, h₂⟩ := h.conserved hc
    rw [List.append_assoc, ← hstreams, ← List.append_assoc] at h₁
    rw [List.append_assoc, ← hdatagrams, ← List.append_assoc] at h₂
    exact ⟨h₁, h₂⟩
  · obtain ⟨hacceptor, hreader, hw⟩ := h.early hd
    exact ⟨ha hacceptor, hr hreader, hw⟩
  · exact hthrough (h.unestablished hest)

theorem orderly_queueStream {c : Conn} (h : Orderly c) {id : Nat} (hhold : c.acceptor = .holding id) :
    Orderly ({ c with acceptor := if c.object.events.isSome then .waiting else .off }.send (.stream id)) := by
  have hitems : c.acceptor.items = [id] := by rw [hhold]; rfl
  have hno : hasClosed c.sent = false := h.not_closed fun ht _ _ _ => by simp [ht.acceptor] at hitems
  refine ⟨closedLast_send (by exact hno) _, fun hc => ?_, fun hc => ?_, Seen.send (by exact h.seen) _, fun hd => ?_, ?_,
    fun hest => ?_⟩
  · rw [not_closed_send (by exact hno) rfl] at hc
    simp at hc
  · cases hev : c.object.events with
    | none =>
      rw [send_events, send_sent] at hc
      simp [hev, hno] at hc
    | some queue =>
      obtain ⟨h₁, h₂⟩ := h.conserved (.inl (by rw [hev]; rfl))
      rw [hitems] at h₁
      simp only [Conserved, send_sent, hev, Option.isSome_some, if_true, send_arrived, send_acceptor, send_reader,
        send_streams, send_datagrams]
      simp only [streamsOf, datagramsOf, List.filterMap_append] at h₁ h₂ ⊢
      exact ⟨by simpa [Hand.items] using h₁, by simpa using h₂⟩
  · have hoff := (h.early (by simpa using hd)).1
    simp [hoff, Hand.items] at hitems
  · simpa using h.unconnected
  · have := (h.unestablished (by simpa using hest)).acceptor
    simp [this] at hitems

theorem orderly_queueDatagram {c : Conn} (h : Orderly c) {data : Bytes} (hhold : c.reader = .holding data) :
    Orderly ({ c with reader := if c.object.events.isSome then .waiting else .off }.send (.datagram data)) := by
  have hitems : c.reader.items = [data] := by rw [hhold]; rfl
  have hno : hasClosed c.sent = false := h.not_closed fun ht _ _ _ => by simp [ht.reader] at hitems
  refine ⟨closedLast_send (by exact hno) _, fun hc => ?_, fun hc => ?_, Seen.send (by exact h.seen) _, fun hd => ?_, ?_,
    fun hest => ?_⟩
  · rw [not_closed_send (by exact hno) rfl] at hc
    simp at hc
  · cases hev : c.object.events with
    | none =>
      rw [send_events, send_sent] at hc
      simp [hev, hno] at hc
    | some queue =>
      obtain ⟨h₁, h₂⟩ := h.conserved (.inl (by rw [hev]; rfl))
      rw [hitems] at h₂
      simp only [Conserved, send_sent, hev, Option.isSome_some, if_true, send_arrived, send_acceptor, send_reader,
        send_streams, send_datagrams]
      simp only [streamsOf, datagramsOf, List.filterMap_append] at h₁ h₂ ⊢
      exact ⟨by simpa using h₁, by simpa [Hand.items] using h₂⟩
  · have hoff := (h.early (by simpa using hd)).2.1
    simp [hoff, Hand.items] at hitems
  · simpa using h.unconnected
  · have := (h.unestablished (by simpa using hest)).reader
    simp [this] at hitems

theorem orderly_watch {c : Conn} (h : Orderly c) (hw : c.watcher = true) {reason : String}
    (hended : c.ended = some reason) (hmet : c.Patient .watch) :
    Orderly ({ c with watcher := false }.send (.closed reason)) := by
  have hno : hasClosed c.sent = false := h.not_closed fun _ hoff _ _ => by simp [hw] at hoff
  have hdial : c.dial = .over := by
    by_contra hd
    have := (h.early hd).2.2
    simp [hw] at this
  refine ⟨closedLast_send (by exact hno) _, fun hc => ⟨?_, by simp, by simpa using hdial, fun _ => by simp [hended]⟩,
    conserved_send (by exact h.conserved) ⟨rfl, rfl⟩, Seen.send (by exact h.seen) _, fun hd => ?_,
    by simpa using h.unconnected, fun hest => ?_⟩
  · have hsome : c.object.events.isSome = true := by
      by_contra hnone
      rw [send_sent, if_neg hnone] at hc
      have hc : hasClosed c.sent = true := hc
      simp [hno] at hc
    exact (hmet hsome).same (by simp) (by simp) (by simp) (by simp)
  · exact absurd (by simpa using hdial) hd
  · exact (h.unestablished (by simpa using hest)).same (by simp) (by simp) (by simp) (by simp)

/-- The object moves on, or script lets go of it. -/
theorem Orderly.objects {c : Conn} (h : Orderly c) {o : IrohConnection} {ended : Option String} {closed dropped : Bool}
    (hseen : Seen o c.sent) (hevents : o.events.isSome = true → c.object.events.isSome = true)
    (hended : c.ended.isSome = true → ended.isSome = true) :
    Orderly { c with object := o, ended, closed, dropped } := by
  refine ⟨h.last, fun hc => ?_, fun hc => h.conserved (hc.imp_left hevents), hseen, h.early, h.unconnected,
    fun hest => ?_⟩
  · obtain ⟨ht, hw, hd, he⟩ := h.closed hc
    exact ⟨ht.same rfl rfl rfl rfl, hw, hd, fun hest => hended (he hest)⟩
  · exact (h.unestablished hest).same rfl rfl rfl rfl

theorem orderly_step {c c' : Conn} {a : Act} (h : Orderly c) (hmet : c.Patient a) (hs : step c a = some c') :
    Orderly c' := by
  cases step_cases hs with
  | answered hd => exact orderly_answered h hd
  | refused hd => exact orderly_refused h hd _
  | opened hd => exact orderly_opened h hd
  | pump hd => exact orderly_pump h hd
  | @stream id ho => simpa [streamsOf, datagramsOf] using orderly_arrives h ho (.stream id)
  | @datagram data ho => simpa [streamsOf, datagramsOf] using orderly_arrives h ho (.datagram data)
  | ends => exact h.moves rfl rfl id id (by simp)
  | accept hwait hq => exact h.moves (by simp [hwait, hq, Hand.items]) rfl (by simp [hwait]) id id
  | queueStream hhold => exact orderly_queueStream h hhold
  | stopAccepting hwait => exact h.moves (by simp [hwait, Hand.items]) rfl (fun _ => rfl) id id
  | read hwait hq => exact h.moves rfl (by simp [hwait, hq, Hand.items]) id (by simp [hwait]) id
  | queueDatagram hhold => exact orderly_queueDatagram h hhold
  | stopReading hwait => exact h.moves rfl (by simp [hwait, Hand.items]) id (fun _ => rfl) id
  | watch hw hended => exact orderly_watch h hw hended hmet
  | drain =>
    refine h.objects h.seen.drainPending (fun hsome => ?_) id
    by_contra hnone
    rw [Option.not_isSome_iff_eq_none] at hnone
    simp [IrohConnection.drainPending, hnone] at hsome
  | recv hdropped hrecv =>
    refine h.objects (h.seen.recvBlocking h.last hrecv) (fun _ => ?_) id
    by_contra hnone
    rw [Option.not_isSome_iff_eq_none] at hnone
    simp [IrohConnection.recvBlocking, hnone] at hrecv
  | openStream | streamOpened => exact h.moves rfl rfl id id id
  | close =>
    refine h.objects h.seen.close (by simp [IrohConnection.close]) fun he => ?_
    split
    · rfl
    · exact he
  | drop => exact h.objects h.seen.close (by simp [IrohConnection.close]) id

/-! ## Every run -/

/-- Every stream and datagram that arrived was handled, each kind in order. -/
def Complete (c : Conn) : Prop :=
  streamsOf c.object.handled = streamsOf c.arrived ∧ datagramsOf c.object.handled = datagramsOf c.arrived

instance (c : Conn) : Decidable c.Complete := inferInstanceAs (Decidable (_ ∧ _))

theorem Orderly.complete {c : Conn} (h : Orderly c) (hclosed : hasClosed c.object.handled = true) : c.Complete := by
  have hnone : c.object.events = none := by
    cases hev : c.object.events with
    | none => rfl
    | some queue =>
      have := (h.seen.waiting queue hev).2
      simp [hclosed] at this
  have hsent := h.seen.gone hnone hclosed
  rw [hsent] at hclosed
  obtain ⟨h₁, h₂⟩ := h.conserved (.inr hclosed)
  obtain ⟨ht, -⟩ := h.closed hclosed
  rw [ht.acceptor, ht.streams, List.append_nil, List.append_nil] at h₁
  rw [ht.reader, ht.datagrams, List.append_nil, List.append_nil] at h₂
  rw [Complete, hsent]
  exact ⟨h₁.symm, h₂.symm⟩

/-- **`Closed` comes last**, in every run of a connection that was dialled or
accepted in which the watcher reports the end only once everything that
arrived is through: nothing is queued after it, and when `IrohConnection` has
handled it, it has handled everything that arrived. -/
theorem closed_is_last {c₀ c : Conn}
    (h₀ : (∃ running tree, c₀ = dialled running tree) ∨ ∃ running tree, c₀ = accepted running tree) {as : List Act}
    (h : Machine.run step c₀ as = some c) (hG : Machine.Along step Patient c₀ as) :
    ClosedLast c.sent ∧ (hasClosed c.object.handled = true → c.Complete) := by
  have hstart : Orderly c₀ := by
    rcases h₀ with ⟨running, tree, rfl⟩ | ⟨running, tree, rfl⟩
    · exact orderly_dialled running tree
    · exact orderly_accepted running tree
  have hc := Machine.run_invariant_along (I := Orderly) (fun _ _ _ => orderly_step) h hG hstart
  exact ⟨hc.last, hc.complete⟩

/-- A datagram arrives and is passed on, and the connection ends. -/
theorem closed_is_last_inTurn : ∃ c, Machine.run step (accepted true true)
    [.datagram [7], .read, .queueDatagram, .ends "bye", .stopReading, .watch, .drain] = some c ∧
      c.object.handled = [.datagram [7], .closed "bye"] ∧ ClosedLast c.sent ∧ c.Complete := by
  have hrun : ((Machine.run step (accepted true true) [.datagram [7], .read, .queueDatagram, .ends "bye", .stopReading,
      .watch, .drain]).map (·.object.handled)) = some [.datagram [7], .closed "bye"] := by
    decide +kernel
  obtain ⟨c, hc, he⟩ := Option.map_eq_some_iff.1 hrun
  obtain ⟨hlast, hall⟩ := closed_is_last (.inr ⟨true, true, rfl⟩) hc (by decide +kernel)
  exact ⟨c, hc, he, hlast, hall (by rw [he]; rfl)⟩

/-- **After the `Closed`**: a datagram arrived before the connection ended,
and is read once the watcher has reported. When the object drains its queue
before that, the datagram is lost. -/
theorem datagram_after_closed :
    (∃ c, Machine.run step (accepted true true) [.datagram [7], .ends "bye", .watch, .read, .queueDatagram] = some c ∧
      c.sent = [.closed "bye", .datagram [7]] ∧ ¬ ClosedLast c.sent) ∧
    ∃ c, Machine.run step (accepted true true) [.datagram [7], .ends "bye", .watch, .drain, .read, .queueDatagram] =
      some c ∧ c.object.handled = [.closed "bye"] ∧ ¬ c.Complete := by
  have hlate : ((Machine.run step (accepted true true) [.datagram [7], .ends "bye", .watch, .read, .queueDatagram]).map
      (·.sent)) = some [.closed "bye", .datagram [7]] := by
    decide +kernel
  have hlost : ((Machine.run step (accepted true true) [.datagram [7], .ends "bye", .watch, .drain, .read,
      .queueDatagram]).map fun c => (c.object.handled, decide c.Complete)) = some ([.closed "bye"], false) := by
    decide +kernel
  obtain ⟨c, hc, he⟩ := Option.map_eq_some_iff.1 hlate
  obtain ⟨d, hd, hlost⟩ := Option.map_eq_some_iff.1 hlost
  simp only [Prod.mk.injEq, decide_eq_false_iff_not] at hlost
  refine ⟨⟨c, hc, he, ?_⟩, ⟨d, hd, hlost.1, hlost.2⟩⟩
  rw [he]
  decide

end Conn
end Gdiroh.Raw
