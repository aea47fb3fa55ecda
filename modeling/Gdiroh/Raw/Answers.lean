/-
What `is_open` says after a `get_datagram` that came back empty.

`get_datagram` gives up where there is no event channel any more, and where
the channel has ended. The channel goes with the handle, on a `Closed` and on
script's own `close`, and `is_open` is false then. But a channel also ends
without a word, when the runtime has dropped the tasks that send on it, and
nothing takes the handle away: `is_open` stays true for good
(`open_after_empty`). `Shows` is what keeps the object and the channel
together up to there.
-/
import Gdiroh.Raw.Signals

namespace Gdiroh.Raw

namespace Conn

/-- What the object shows of what was sent to it. -/
structure Shows (dialled : Bool) (c : Conn) : Prop where
  /-- While there is an event channel, no `Closed` has been handled. -/
  unclosed : ∀ queue, c.object.events = some queue → hasClosed c.sent = hasClosed queue
  /-- The handle is there, or comes in the channel, once the connection has opened. -/
  handle : ∀ queue, c.object.events = some queue →
    (c.object.connection = true ∨ .opened ∈ queue ↔ (dialled = true → .opened ∈ c.sent))
  closed : c.closed = true → c.object.events = none
  gone : c.object.events = none → c.closed = true ∨ c.dropped = true ∨ hasClosed c.sent = true

variable {dialled : Bool} {c c' : Conn}

theorem Shows.same (h : c.Shows dialled) (ho : c'.object = c.object) (hsent : c'.sent = c.sent)
    (hclosed : c'.closed = c.closed) (hdropped : c'.dropped = c.dropped) : c'.Shows dialled := by
  refine ⟨?_, ?_, ?_, ?_⟩
  · rw [ho, hsent]
    exact h.unclosed
  · rw [ho, hsent]
    exact h.handle
  · rw [ho, hclosed]
    exact h.closed
  · rw [ho, hsent, hclosed, hdropped]
    exact h.gone

theorem Shows.send (h : c.Shows dialled) (e : Event) : (c.send e).Shows dialled := by
  cases he : c.object.events with
  | none =>
    rw [Conn.send, he]
    exact h
  | some queue =>
    refine ⟨fun queue' hq => ?_, fun queue' hq => ?_, fun hc => ?_, fun hnone => ?_⟩
    · rw [send_events, he, Option.map_some] at hq
      obtain rfl := Option.some.inj hq
      rw [send_sent, he, Option.isSome_some, if_pos rfl, hasClosed_append, hasClosed_append, h.unclosed queue he]
    · rw [send_events, he, Option.map_some] at hq
      obtain rfl := Option.some.inj hq
      have hhandle := h.handle queue he
      rw [send_connection, send_sent, he, Option.isSome_some, if_pos rfl, List.mem_append, List.mem_append, ← or_assoc,
        hhandle]
      by_cases hd : dialled = true <;> simp [hd]
    · rw [send_closed] at hc
      simp [h.closed hc] at he
    · simp [send_events, he] at hnone

/-- Handling a batch without a `Closed`. -/
theorem handles_connection {pending : List Event} {o : IrohConnection} (hno : hasClosed pending = false) :
    (pending.foldl IrohConnection.handle o).connection = true ↔ o.connection = true ∨ .opened ∈ pending := by
  induction pending generalizing o with
  | nil => simp
  | cons e pending ih =>
    simp only [hasClosed, List.any_cons, Bool.or_eq_false_iff] at hno
    rw [List.foldl_cons, ih hno.2]
    cases e with
    | opened => simp [IrohConnection.handle, IrohConnection.emitLater]
    | closed => simp [Event.isClosed] at hno
    | stream | datagram => simp [IrohConnection.handle, IrohConnection.emitLater]

/-- The object handles the front of the channel. -/
theorem Shows.handles (h : c.Shows dialled) {pending queue : List Event}
    (he : c.object.events = some (pending ++ queue)) :
    Shows dialled { c with object := pending.foldl IrohConnection.handle { c.object with events := some queue } } := by
  have hevents := (handles_seen pending { c.object with events := some queue }).2
  have hopen : c.closed = false := by
    by_contra hc
    simp [h.closed (by simpa using hc)] at he
  have hsent := h.unclosed _ he
  rw [hasClosed_append] at hsent
  cases hc : hasClosed pending with
  | true =>
    rw [hc, if_pos rfl] at hevents
    refine ⟨fun _ hq => ?_, fun _ hq => ?_, fun _ => hevents, fun _ => .inr (.inr ?_)⟩
    · simp [hevents] at hq
    · simp [hevents] at hq
    · simpa [hc] using hsent
  | false =>
    rw [hc, if_neg Bool.false_ne_true] at hevents
    refine ⟨fun queue' hq => ?_, fun queue' hq => ?_, fun hclosed => ?_, fun hnone => ?_⟩
    · obtain rfl := Option.some.inj (hevents.symm.trans hq)
      simpa [hc] using hsent
    · obtain rfl := Option.some.inj (hevents.symm.trans hq)
      rw [← h.handle _ he, handles_connection hc, List.mem_append, or_assoc]
    · exact absurd hclosed (by simp [hopen])
    · simp [hevents] at hnone

theorem Shows.drains (h : c.Shows dialled) : Shows dialled { c with object := c.object.drainPending } := by
  cases he : c.object.events with
  | none =>
    rw [IrohConnection.drainPending, he]
    exact h
  | some pending =>
    have hall : c.object.events = some (pending ++ []) := by rw [he, List.append_nil]
    rw [IrohConnection.drainPending, he]
    exact h.handles hall

/-- `get_datagram` takes a datagram off the channel. -/
theorem Shows.takes (h : c.Shows dialled) {data : Bytes} {rest handled : List Event}
    (he : c.object.events = some (.datagram data :: rest)) :
    Shows dialled { c with object := { c.object with events := some rest, handled } } := by
  refine ⟨fun queue hq => ?_, fun queue hq => ?_, fun hc => ?_, by simp⟩
  · obtain rfl := Option.some.inj hq
    exact (h.unclosed _ he).trans rfl
  · obtain rfl := Option.some.inj hq
    have hhandle := h.handle _ he
    rw [List.mem_cons] at hhandle
    simpa using hhandle
  · simp [h.closed hc] at he

theorem shows_dialled (running tree : Bool) : Shows true (Conn.dialled running tree) := by
  cases running with
  | true =>
    refine ⟨fun queue hq => ?_, fun queue hq => ?_, by simp [Conn.dialled], by simp [Conn.dialled]⟩
    · obtain rfl := Option.some.inj hq
      rfl
    · obtain rfl := Option.some.inj hq
      simp [Conn.dialled]
  | false =>
    refine ⟨fun queue hq => ?_, fun queue hq => ?_, by simp [Conn.dialled], by simp [Conn.dialled]⟩
    · obtain rfl := Option.some.inj hq
      rfl
    · obtain rfl := Option.some.inj hq
      simp [Conn.dialled]

theorem shows_accepted (running tree : Bool) : Shows false (Conn.accepted running tree) := by
  refine ⟨fun queue hq => ?_, fun queue hq => ?_, by simp [Conn.accepted], by simp [Conn.accepted]⟩
  · obtain rfl := Option.some.inj hq
    rfl
  · obtain rfl := Option.some.inj hq
    simp [Conn.accepted]

theorem stepped_shows {act : Act} (h : c.Shows dialled) (hs : Stepped c act c') (hne : act ≠ .recv) :
    c'.Shows dialled := by
  cases hs with
  | refused | opened | queueStream | queueDatagram | watch => exact Shows.send (by exact h.same rfl rfl rfl rfl) _
  | drain => exact h.drains
  | recv => exact absurd rfl hne
  | close | drop =>
    exact ⟨fun _ hq => by simp [IrohConnection.close] at hq, fun _ hq => by simp [IrohConnection.close] at hq,
      fun _ => rfl, fun _ => by simp⟩
  | _ => exact h.same rfl rfl rfl rfl

end Conn

namespace Receiver

variable {dialled : Bool} {s s' : Receiver}

/-- `IrohConnection::is_open`. -/
def isOpen (s : Receiver) : Bool := s.conn.object.connection

/-- The connection has opened and script has not closed it, nobody is left
who could report its end, and nobody has. -/
structure Orphaned (dialled : Bool) (s : Receiver) : Prop where
  opened : dialled = true → .opened ∈ s.conn.sent
  kept : s.conn.closed = false
  unfed : s.conn.feeding = false
  unreported : hasClosed s.conn.sent = false

theorem stepped_shows {a : Act} (h : s.conn.Shows dialled) (hs : Stepped s a s') : s'.conn.Shows dialled := by
  cases hs with
  | conn hb hs => exact Conn.stepped_shows h hs (Conn.Act.ne_recv hb)
  | count => exact h.drains
  | popped => exact ⟨h.unclosed, h.handle, h.closed, h.gone⟩
  | received _ he => exact h.takes he
  | @handled e rest _ he =>
    have hfront : s.conn.object.events = some ([e] ++ rest) := he
    exact h.handles hfront
  | waits | ended | silent => exact h
  | stop => exact h.same rfl rfl rfl rfl
  | @lose task => cases task <;> exact h.same rfl rfl rfl rfl

/-- Nobody drops the object while `get_datagram` blocks. -/
theorem stepped_undropped {a : Act} (h : s.receiving = true → s.conn.dropped = false) (hs : Stepped s a s') :
    s'.receiving = true → s'.conn.dropped = false := by
  intro hr
  cases hs with
  | conn hb hs =>
    cases hs with
    | drop =>
      have hr : s.receiving = true := hr
      simp [Conn.Act.beside, hr] at hb
    | refused | opened | queueStream | queueDatagram | watch =>
      rw [Conn.send_dropped]
      exact h hr
    | _ => exact h hr
  | count _ hr' => simp [hr'] at hr
  | waits hd => exact hd
  | popped | ended | silent | received => simp [answers] at hr
  | @lose task => cases task <;> exact h hr
  | handled | stop => exact h hr

theorem shows_run {running tree : Bool} {as : List Act}
    (h : Machine.run step (made dialled running tree) as = some s) :
    s.conn.Shows dialled ∧ (s.receiving = true → s.conn.dropped = false) := by
  refine Machine.run_invariant
    (I := fun s : Receiver => s.conn.Shows dialled ∧ (s.receiving = true → s.conn.dropped = false))
    (fun _ _ _ hI hs => ⟨stepped_shows hI.1 (step_cases hs), stepped_undropped hI.2 (step_cases hs)⟩) h ⟨?_, ?_⟩
  · cases dialled with
    | true => exact Conn.shows_dialled running tree
    | false => exact Conn.shows_accepted running tree
  · intro hr
    simp [made] at hr

/-- **Empty answers.** When `get_datagram` returns without a datagram, the
connection is not open right after, exactly if it was not orphaned. -/
theorem empty_answer_iff {running tree : Bool} {as : List Act}
    (h : Machine.run step (made dialled running tree) as = some s) {a : Act} (hs : step s a = some s')
    (hr : s.receiving = true) (hreturns : s'.receiving = false) (hempty : s'.answer = some none) :
    s'.isOpen = false ↔ ¬ s.Orphaned dialled := by
  obtain ⟨hshows, hdropped⟩ := shows_run h
  cases step_cases hs with
  | conn | stop | lose => simp [hr] at hreturns
  | count _ hr' | popped _ hr' | waits _ hr' => simp [hr] at hr'
  | received => simp [answers] at hempty
  | handled => simp [hr] at hreturns
  | ended _ he =>
    refine iff_of_true ((stage_run h).closed he) fun horphan => ?_
    rcases hshows.gone he with hclosed | hgone | hreported
    · simp [horphan.kept] at hclosed
    · simp [hdropped hr] at hgone
    · simp [horphan.unreported] at hreported
  | silent _ he hf =>
    have hunreported : hasClosed s.conn.sent = false := hshows.unclosed _ he
    have hkept : s.conn.closed = false := by
      by_contra hc
      simp [hshows.closed (by simpa using hc)] at he
    have hhandle : s.isOpen = true ↔ (dialled = true → .opened ∈ s.conn.sent) := by
      simpa [isOpen] using hshows.handle _ he
    have hopen : s.isOpen = true ↔ s.Orphaned dialled :=
      hhandle.trans ⟨fun hopened => ⟨hopened, hkept, hf, hunreported⟩, fun horphan => horphan.opened⟩
    rw [← hopen, Bool.not_eq_true]
    rfl

/-- The remote closes while `get_datagram` waits. -/
theorem empty_answer_iff_closed : ∃ s s', Machine.run step (made false true true) [.getDatagram, .conn (.ends "bye"),
      .conn .watch, .turn] = some s ∧ step s .turn = some s' ∧ s'.answer = some none ∧
    (s'.isOpen = false ↔ ¬ s.Orphaned false) ∧ s'.isOpen = false := by
  have hrun : ((Machine.run step (made false true true) [.getDatagram, .conn (.ends "bye"), .conn .watch, .turn]).bind
      fun s => (step s .turn).map fun s' => (s.receiving, s'.receiving, decide (s'.answer = some none), s'.isOpen)) =
        some (true, false, true, false) := by decide +kernel
  obtain ⟨s, hs, he⟩ := Option.bind_eq_some_iff.1 hrun
  obtain ⟨s', hs', he⟩ := Option.map_eq_some_iff.1 he
  simp only [Prod.mk.injEq] at he
  obtain ⟨hr, hreturns, hempty, hopen⟩ := he
  have hempty := of_decide_eq_true hempty
  exact ⟨s, s', hs, hs', hempty, empty_answer_iff hs hs' hr hreturns hempty, hopen⟩

/-- The runtime stops and drops the tasks of an open connection. A
`get_datagram` comes back empty, and the connection is still open. -/
theorem open_after_empty : ∃ s s', Machine.run step (made false true true) [.stop, .lose .acceptor, .lose .reader,
      .lose .watcher, .getDatagram] = some s ∧ step s .turn = some s' ∧ s.receiving = true ∧ s'.receiving = false ∧
    s'.answer = some none ∧ s'.isOpen = true := by
  have hrun : ((Machine.run step (made false true true) [.stop, .lose .acceptor, .lose .reader, .lose .watcher,
      .getDatagram]).bind fun s => (step s .turn).map fun s' =>
        (s.receiving, s'.receiving, decide (s'.answer = some none), s'.isOpen)) =
          some (true, false, true, true) := by decide +kernel
  obtain ⟨s, hs, he⟩ := Option.bind_eq_some_iff.1 hrun
  obtain ⟨s', hs', he⟩ := Option.map_eq_some_iff.1 he
  simp only [Prod.mk.injEq] at he
  exact ⟨s, s', hs, hs', he.1, he.2.1, of_decide_eq_true he.2.2.1, he.2.2.2⟩

end Receiver
end Gdiroh.Raw
