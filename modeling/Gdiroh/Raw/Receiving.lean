/-
Reading datagrams from an `IrohConnection` by calling for them:
`get_available_datagram_count` and `get_datagram` of `connection.rs`, on a
connection whose tasks run, or are dropped with the runtime.

Datagrams come to script on two paths, from the object's own queue, which
every drain fills, and straight from the event channel, when `get_datagram`
finds the queue empty and waits. They are in order across both because the
second is only taken when nothing is on the first (`datagrams_in_order`).
-/
import Gdiroh.Raw.Closing

namespace Gdiroh.Raw

/-- The tasks that send events. -/
inductive Task where
  | dial
  | acceptor
  | reader
  | watcher
deriving DecidableEq

namespace Conn

/-- The runtime drops a task, and what it has in hand with it. -/
def lose (c : Conn) : Task → Conn
  | .dial => { c with dial := .over }
  | .acceptor => { c with acceptor := .off }
  | .reader => { c with reader := .off }
  | .watcher => { c with watcher := false }

/-- The event channel has a sender. -/
def feeding (c : Conn) : Bool := c.dial ≠ .over || c.acceptor ≠ .off || c.reader ≠ .off || c.watcher

/-- What can be done besides `get_datagram`: it blocks the main thread, and
takes events in turns of its own. -/
def Act.beside (receiving : Bool) : Act → Bool
  | .recv => false
  | .drain | .openStream | .close _ | .drop => !receiving
  | _ => true

theorem Act.ne_recv {act : Act} {receiving : Bool} (h : act.beside receiving = true) : act ≠ .recv := by
  rintro rfl
  simp [beside] at h

end Conn

/-- A connection and the calls of `get_datagram` on it. -/
structure Receiver where
  conn : Conn
  /-- `get_datagram` is in its loop. -/
  receiving : Bool := false
  /-- The datagrams it has returned. -/
  taken : List Bytes := []
  /-- What it returned last: a datagram, or nothing. -/
  answer : Option (Option Bytes) := none
  /-- `get_available_datagram_count` last answered with more than zero, and
  no datagram was taken since. -/
  counted : Bool := false
  /-- The runtime has dropped the datagram reader. -/
  lost : Bool := false

namespace Receiver

/-- Both constructors of a connection. -/
def Fresh (s : Receiver) : Prop :=
  ∃ running tree, s = { conn := Conn.dialled running tree } ∨ s = { conn := Conn.accepted running tree }

/-- A connection as it is made. -/
def made (dialled running tree : Bool) : Receiver :=
  { conn := if dialled then Conn.dialled running tree else Conn.accepted running tree }

inductive Act where
  /-- The network, a task, or a call of script's other than those below. -/
  | conn (act : Conn.Act)
  | count
  /-- `get_datagram` is called. -/
  | getDatagram
  /-- It takes one turn of its loop. -/
  | turn
  /-- The last lease of the runtime goes. -/
  | stop
  /-- The runtime drops a task as it shuts down. -/
  | lose (task : Task)

/-- `get_datagram` returns. -/
def answers (s : Receiver) (datagram : Option Bytes) : Receiver :=
  { s with
    receiving := false
    taken := s.taken ++ datagram.toList
    answer := some datagram
    counted := s.counted && datagram.isNone }

def step (s : Receiver) : Act → Option Receiver
  | .conn act =>
    if act.beside s.receiving then (Conn.step s.conn act).map fun conn => { s with conn := conn } else none
  | .count =>
    if s.conn.dropped ∨ s.receiving then none
    else
      let object := s.conn.object.drainPending
      some { s with conn := { s.conn with object := object }, counted := !object.datagrams.isEmpty }
  | .getDatagram =>
    if s.conn.dropped ∨ s.receiving then none
    else
      match s.conn.object.datagrams with
      | data :: rest =>
        some ({ s with conn := { s.conn with object := { s.conn.object with datagrams := rest } } }.answers (some data))
      | [] => some { s with receiving := true }
  | .turn =>
    if s.receiving then
      match s.conn.object.events with
      | none => some (s.answers none)
      | some [] => if s.conn.feeding then none else some (s.answers none)
      | some (e :: _) =>
        s.conn.object.recvBlocking.map fun object =>
          let s := { s with conn := { s.conn with object := object } }
          match e with
          | .datagram data => s.answers (some data)
          | _ => s
    else none
  | .stop => some { s with conn := { s.conn with running := false } }
  | .lose task =>
    if s.conn.running then none
    else some { s with conn := s.conn.lose task, lost := s.lost || task = .reader }

/-! ## What a step does -/

inductive Stepped (s : Receiver) : Act → Receiver → Prop
  | conn {act conn} (hb : act.beside s.receiving = true) (hs : Conn.Stepped s.conn act conn) :
    Stepped s (.conn act) { s with conn := conn }
  | count (hd : s.conn.dropped = false) (hr : s.receiving = false) : Stepped s .count { s with
      conn := { s.conn with object := s.conn.object.drainPending }
      counted := !s.conn.object.drainPending.datagrams.isEmpty }
  | popped {data rest} (hd : s.conn.dropped = false) (hr : s.receiving = false)
      (hq : s.conn.object.datagrams = data :: rest) : Stepped s .getDatagram
        ({ s with conn := { s.conn with object := { s.conn.object with datagrams := rest } } }.answers (some data))
  | waits (hd : s.conn.dropped = false) (hr : s.receiving = false) (hq : s.conn.object.datagrams = []) :
    Stepped s .getDatagram { s with receiving := true }
  | ended (hr : s.receiving = true) (he : s.conn.object.events = none) : Stepped s .turn (s.answers none)
  | silent (hr : s.receiving = true) (he : s.conn.object.events = some []) (hf : s.conn.feeding = false) :
    Stepped s .turn (s.answers none)
  | received {data rest} (hr : s.receiving = true) (he : s.conn.object.events = some (.datagram data :: rest)) :
    Stepped s .turn ({ s with conn := { s.conn with object := { s.conn.object with
      events := some rest, handled := s.conn.object.handled ++ [Event.datagram data] } } }.answers (some data))
  | handled {e rest} (hr : s.receiving = true) (he : s.conn.object.events = some (e :: rest))
      (hne : ∀ data, e ≠ .datagram data) : Stepped s .turn
        { s with conn := { s.conn with object := { s.conn.object with events := some rest }.handle e } }
  | stop : Stepped s .stop { s with conn := { s.conn with running := false } }
  | lose {task} (hr : s.conn.running = false) :
    Stepped s (.lose task) { s with conn := s.conn.lose task, lost := s.lost || task = .reader }

variable {s s' : Receiver}

theorem step_cases {a : Act} (h : step s a = some s') : Stepped s a s' := by
  cases a with
  | conn act =>
    simp only [step] at h
    split at h
    · next hb =>
      obtain ⟨conn, hs, rfl⟩ := Option.map_eq_some_iff.1 h
      exact .conn hb (Conn.step_cases hs)
    · simp at h
  | count =>
    simp only [step] at h
    split at h
    · simp at h
    · next hg =>
      simp only [not_or, Bool.not_eq_true] at hg
      exact Option.some.inj h ▸ .count hg.1 hg.2
  | getDatagram =>
    simp only [step] at h
    split at h
    · simp at h
    next hg =>
    simp only [not_or, Bool.not_eq_true] at hg
    split at h
    · next hq => exact Option.some.inj h ▸ .popped hg.1 hg.2 hq
    · next hq => exact Option.some.inj h ▸ .waits hg.1 hg.2 hq
  | turn =>
    simp only [step] at h
    split at h
    · next hr =>
      split at h
      · next he => exact Option.some.inj h ▸ .ended hr he
      · next he =>
        split at h
        · simp at h
        · next hf => exact Option.some.inj h ▸ .silent hr he (by simpa using hf)
      · next e rest he =>
        cases e with
        | datagram data =>
          simp only [IrohConnection.recvBlocking, he, Option.map_some, Option.some.injEq] at h
          exact h ▸ .received hr he
        | opened | stream | closed =>
          simp only [IrohConnection.recvBlocking, he, Option.map_some, Option.some.injEq] at h
          exact h ▸ .handled hr he (by simp)
    · simp at h
  | stop => exact Option.some.inj h ▸ .stop
  | lose task =>
    simp only [step] at h
    split at h
    · simp at h
    · next hr => exact Option.some.inj h ▸ .lose (by simpa using hr)

/-! ## Order -/

@[simp] theorem datagramsOf_append (xs ys : List Event) : datagramsOf (xs ++ ys) = datagramsOf xs ++ datagramsOf ys := by
  simp [datagramsOf]

/-- Handling a batch appends its datagrams to the queue. -/
theorem handles_datagrams (pending : List Event) (o : IrohConnection) :
    (pending.foldl IrohConnection.handle o).datagrams = o.datagrams ++ datagramsOf pending := by
  induction pending generalizing o with
  | nil => simp [datagramsOf]
  | cons e pending ih =>
    rw [List.foldl_cons, ih]
    cases e with
    | datagram data => simp [IrohConnection.handle, IrohConnection.emitLater, datagramsOf]
    | opened | stream | closed => rfl

theorem drainPending_datagrams (o : IrohConnection) :
    o.drainPending.datagrams = o.datagrams ++ datagramsOf (o.events.getD []) := by
  unfold IrohConnection.drainPending
  split
  · next he => simp [he, datagramsOf]
  · next pending he =>
    rw [handles_datagrams, he]
    rfl

theorem drainPending_events {o : IrohConnection} {queue : List Event} (h : o.drainPending.events = some queue) :
    queue = [] ∧ o.events.isSome = true := by
  unfold IrohConnection.drainPending at h
  split at h
  · next he => simp [he] at h
  · next pending he =>
    rw [(Conn.handles_seen pending _).2] at h
    split at h
    · simp at h
    · exact ⟨(Option.some.inj h).symm, by simp [he]⟩

/-- The datagrams that script has taken, those in the object's queue and those
in the channel are the ones that were sent, in this order. -/
def Whole (taken : List Bytes) (c : Conn) : Prop :=
  ∀ queue, c.object.events = some queue → taken ++ c.object.datagrams ++ datagramsOf queue = datagramsOf c.sent

/-- Those that have arrived were sent, or are in the reader's hand or wait
for it. -/
def Carried (c : Conn) : Prop := datagramsOf c.arrived = datagramsOf c.sent ++ c.reader.items ++ c.datagrams

structure InOrder (s : Receiver) : Prop where
  whole : Whole s.taken s.conn
  carried : s.conn.object.events.isSome = true → s.lost = false → Carried s.conn
  /-- Before the pump. -/
  early : s.conn.dial ≠ .over → s.conn.reader = .off
  waiting : s.receiving = true → s.conn.object.datagrams = []
  counted : s.counted = true → s.conn.object.datagrams ≠ []

theorem send_object_datagrams (c : Conn) (e : Event) : (c.send e).object.datagrams = c.object.datagrams := by
  rw [Conn.send_eq]

theorem Whole.send {taken : List Bytes} {c : Conn} (h : Whole taken c) (e : Event) : Whole taken (c.send e) := by
  intro queue hq
  rw [Conn.send_events] at hq
  obtain ⟨queue', hq', rfl⟩ := Option.map_eq_some_iff.1 hq
  rw [send_object_datagrams, Conn.send_sent, hq', Option.isSome_some, if_pos rfl, datagramsOf_append,
    datagramsOf_append, ← h queue' hq']
  simp

theorem Carried.send {c : Conn} (h : Carried c) {e : Event} (he : datagramsOf [e] = []) : Carried (c.send e) := by
  rw [Carried, Conn.send_arrived, Conn.send_sent, Conn.send_reader, Conn.send_datagrams, h]
  split
  · rw [datagramsOf_append, he, List.append_nil]
  · rfl

/-- The connection takes a step on which nothing of the object but its event
channel changes. -/
theorem InOrder.moves (h : s.InOrder) {conn : Conn} (hobject : conn.object.datagrams = s.conn.object.datagrams)
    (hwhole : Whole s.taken s.conn → Whole s.taken conn)
    (hcarried : conn.object.events.isSome = true → s.lost = false → Carried conn)
    (hearly : conn.dial ≠ .over → conn.reader = .off) : InOrder { s with conn := conn } :=
  ⟨hwhole h.whole, hcarried, hearly, fun hr => hobject.trans (h.waiting hr), fun hc => hobject ▸ h.counted hc⟩

/-- A task sends something that is no datagram. -/
theorem InOrder.sends (h : s.InOrder) {conn : Conn} (e : Event) (hobject : conn.object = s.conn.object)
    (hsent : conn.sent = s.conn.sent) (harrived : conn.arrived = s.conn.arrived)
    (hreader : conn.reader = s.conn.reader) (hdatagrams : conn.datagrams = s.conn.datagrams)
    (hdial : conn.dial ≠ .over → s.conn.dial ≠ .over) (he : datagramsOf [e] = []) :
    InOrder { s with conn := conn.send e } := by
  refine h.moves (by rw [send_object_datagrams, hobject]) (fun hwhole => Whole.send ?_ e) (fun hev hl => ?_) fun hd => ?_
  · rw [Whole, hobject, hsent]
    exact hwhole
  · refine Carried.send ?_ he
    rw [Conn.send_events, Option.isSome_map, hobject] at hev
    rw [Carried, harrived, hsent, hreader, hdatagrams]
    exact h.carried hev hl
  · rw [Conn.send_dial] at hd
    rw [Conn.send_reader, hreader]
    exact h.early (hdial hd)

/-- A drain, by whichever call. -/
theorem InOrder.drains (h : s.InOrder) (hr : s.receiving = false) {counted : Bool}
    (hc : counted = true → s.conn.object.drainPending.datagrams ≠ []) :
    InOrder { s with conn := { s.conn with object := s.conn.object.drainPending }, counted := counted } := by
  refine ⟨fun queue hq => ?_, fun hev hl => ?_, h.early, by simp [hr], hc⟩
  · obtain ⟨rfl, hev⟩ := drainPending_events hq
    obtain ⟨pending, hpending⟩ := Option.isSome_iff_exists.1 hev
    rw [← h.whole pending hpending]
    simp [drainPending_datagrams, hpending, datagramsOf]
  · obtain ⟨queue, hq⟩ := Option.isSome_iff_exists.1 hev
    exact h.carried (drainPending_events hq).2 hl

theorem conn_inOrder {act : Conn.Act} {conn : Conn} (h : s.InOrder) (hb : act.beside s.receiving = true)
    (hs : Conn.Stepped s.conn act conn) : InOrder { s with conn := conn } := by
  cases hs with
  | answered hd => exact h.moves rfl id h.carried fun _ => h.early (by simp [hd])
  | refused => exact h.sends (.closed _) rfl rfl rfl rfl rfl (by simp) rfl
  | opened hd => exact h.sends .opened rfl rfl rfl rfl rfl (by simp [hd]) rfl
  | pump hd =>
    refine h.moves rfl id (fun hev hl => ?_) (by simp)
    have hcarried := h.carried hev hl
    rw [Carried, h.early (by simp [hd])] at hcarried
    exact hcarried
  | stream =>
    refine h.moves rfl id (fun hev hl => ?_) h.early
    have hcarried := h.carried hev hl
    rw [Carried] at hcarried ⊢
    simpa [datagramsOf] using hcarried
  | @datagram data =>
    refine h.moves rfl id (fun hev hl => ?_) h.early
    have hcarried := h.carried hev hl
    simp only [Carried, datagramsOf_append] at hcarried ⊢
    rw [hcarried, List.append_assoc]
    rfl
  | ends | accept | stopAccepting | openStream | streamOpened => exact h.moves rfl id h.carried h.early
  | queueStream => exact h.sends (.stream _) rfl rfl rfl rfl rfl id rfl
  | read hwait hq =>
    refine h.moves rfl id (fun hev hl => ?_) fun hd => ?_
    · have hcarried := h.carried hev hl
      rw [Carried, hwait, hq] at hcarried
      simpa [Carried, Hand.items] using hcarried
    · have := h.early hd
      simp [hwait] at this
  | @queueDatagram data hhold =>
    have hover : s.conn.dial = .over := by
      by_contra hd
      have := h.early hd
      simp [hhold] at this
    refine h.moves (by rw [send_object_datagrams]) (fun hwhole => Whole.send (by exact hwhole) _) (fun hev hl => ?_)
      fun hd => ?_
    · rw [Conn.send_events, Option.isSome_map] at hev
      have hcarried := h.carried hev hl
      rw [Carried, hhold] at hcarried
      have hev : s.conn.object.events.isSome = true := hev
      rw [Carried, Conn.send_arrived, hcarried, Conn.send_sent, Conn.send_reader, Conn.send_datagrams]
      simp only [hev, if_true, datagramsOf_append, List.append_assoc]
      rfl
    · exact absurd (by simpa using hover) hd
  | stopReading hwait =>
    refine h.moves rfl id (fun hev hl => ?_) fun _ => rfl
    have hcarried := h.carried hev hl
    rw [Carried, hwait] at hcarried
    exact hcarried
  | watch => exact h.sends (.closed _) rfl rfl rfl rfl rfl id rfl
  | drain =>
    refine h.drains (by simpa [Conn.Act.beside] using hb) fun hc => ?_
    rw [drainPending_datagrams]
    exact List.append_ne_nil_of_left_ne_nil (h.counted hc) _
  | recv => simp [Conn.Act.beside] at hb
  | close | drop =>
    have hnot : s.receiving = false := by simpa [Conn.Act.beside] using hb
    exact ⟨fun queue hq => by simp [IrohConnection.close] at hq, fun hev => by simp [IrohConnection.close] at hev,
      h.early, by simp [hnot], h.counted⟩

theorem answers_none_inOrder (h : s.InOrder) : (s.answers none).InOrder := by
  refine ⟨?_, h.carried, h.early, by simp [answers], fun hc => h.counted (by simpa [answers] using hc)⟩
  simpa [answers] using h.whole

theorem stepped_inOrder {a : Act} (h : s.InOrder) (hs : Stepped s a s') : s'.InOrder := by
  cases hs with
  | conn hb hs => exact conn_inOrder h hb hs
  | count _ hr => exact h.drains hr (by simp)
  | popped _ _ hq =>
    refine ⟨fun queue he => ?_, h.carried, h.early, by simp [answers], by simp [answers]⟩
    have hwhole := h.whole queue he
    rw [hq] at hwhole
    simpa [answers] using hwhole
  | waits _ _ hq => exact ⟨h.whole, h.carried, h.early, fun _ => hq, h.counted⟩
  | ended | silent => exact answers_none_inOrder h
  | @received data rest hr he =>
    -- The object's own queue is empty.
    have hnil := h.waiting hr
    refine ⟨fun queue hq => ?_, fun _ hl => h.carried (by simp [he]) hl, h.early, by simp [answers], by simp [answers]⟩
    obtain rfl := Option.some.inj hq
    have hwhole := h.whole _ he
    rw [hnil] at hwhole
    simpa [answers, hnil, datagramsOf] using hwhole
  | @handled e rest hr he hne =>
    have hsame : ({ s.conn.object with events := some rest }.handle e).datagrams = s.conn.object.datagrams := by
      cases e with
      | datagram data => exact absurd rfl (hne data)
      | opened | stream | closed => rfl
    have hrest : datagramsOf (e :: rest) = datagramsOf rest := by
      cases e with
      | datagram data => exact absurd rfl (hne data)
      | opened | stream | closed => rfl
    refine h.moves hsame (fun hwhole queue hq => ?_) (fun _ hl => h.carried (by simp [he]) hl) h.early
    have hqueue : queue = rest := by
      cases e with
      | closed reason => simp [IrohConnection.handle, IrohConnection.emitLater] at hq
      | opened | stream | datagram => exact (Option.some.inj hq).symm
    subst hqueue
    rw [hsame, ← hrest]
    exact hwhole _ he
  | stop => exact h.moves rfl id h.carried h.early
  | @lose task =>
    cases task with
    | dial =>
      exact ⟨h.whole, fun hev hl => h.carried hev (by simpa using hl), fun hd => absurd rfl hd, h.waiting, h.counted⟩
    | acceptor | watcher =>
      exact ⟨h.whole, fun hev hl => h.carried hev (by simpa using hl), h.early, h.waiting, h.counted⟩
    | reader => exact ⟨h.whole, by simp, fun _ => rfl, h.waiting, h.counted⟩

theorem fresh_inOrder (h : s.Fresh) : s.InOrder := by
  obtain ⟨running, tree, rfl | rfl⟩ := h
  · cases running <;> refine ⟨fun queue hq => ?_, fun _ _ => rfl, fun _ => rfl, by simp, by simp⟩
    · obtain rfl := Option.some.inj hq
      rfl
    · obtain rfl := Option.some.inj hq
      rfl
  · cases running <;> refine ⟨fun queue hq => ?_, fun _ _ => rfl, fun hd => absurd rfl hd, by simp, by simp⟩
    · obtain rfl := Option.some.inj hq
      rfl
    · obtain rfl := Option.some.inj hq
      rfl

/-- **Datagrams in order.** Until the connection is closed, the datagrams that
`get_datagram` has returned, the ones in the object's queue and the ones in
the event channel are those that were sent there, in this order; and these
are, with the one in the reader's hand and the ones that wait for it, all that
have arrived. A `get_datagram` does not wait when a datagram was counted and
none taken since. -/
theorem datagrams_in_order {s₀ : Receiver} (h₀ : s₀.Fresh) {as : List Act} (h : Machine.run step s₀ as = some s) :
    (∀ queue, s.conn.object.events = some queue →
      s.taken ++ s.conn.object.datagrams ++ datagramsOf queue = datagramsOf s.conn.sent ∧
      (s.lost = false →
        s.taken ++ s.conn.object.datagrams ++ datagramsOf queue ++ s.conn.reader.items ++ s.conn.datagrams =
          datagramsOf s.conn.arrived)) ∧
    (s.counted = true → ∀ s', step s .getDatagram = some s' →
      s'.receiving = false ∧ ∃ data rest, s.conn.object.datagrams = data :: rest ∧ s'.answer = some (some data)) := by
  have horder : s.InOrder := Machine.run_invariant (fun _ _ _ hI hs => stepped_inOrder hI (step_cases hs)) h
    (fresh_inOrder h₀)
  refine ⟨fun queue hq => ?_, fun hc s' hs => ?_⟩
  · have hwhole := horder.whole queue hq
    refine ⟨hwhole, fun hl => ?_⟩
    rw [hwhole, horder.carried (by simp [hq]) hl]
  · cases step_cases hs with
    | popped _ _ hq => exact ⟨rfl, _, _, hq, rfl⟩
    | waits _ _ hq => exact absurd hq (horder.counted hc)

/-- Three datagrams: one is counted and taken from the queue, one is waited
for, and the last is still in the channel. -/
theorem datagrams_in_order_mixed :
    ∃ s, Machine.run step { conn := Conn.accepted true true } [.conn (.datagram [1]), .conn .read, .conn .queueDatagram,
      .count, .getDatagram, .getDatagram, .conn (.stream 5), .conn .accept, .conn .queueStream, .turn,
      .conn (.datagram [2]), .conn .read, .conn .queueDatagram, .conn (.datagram []), .conn .read,
      .conn .queueDatagram, .turn] = some s ∧
    s.taken = [[1], [2]] ∧ s.conn.object.events = some [.datagram []] ∧
    s.taken ++ s.conn.object.datagrams ++ datagramsOf [.datagram []] = datagramsOf s.conn.sent := by
  have hrun : (Machine.run step { conn := Conn.accepted true true } [.conn (.datagram [1]), .conn .read,
      .conn .queueDatagram, .count, .getDatagram, .getDatagram, .conn (.stream 5), .conn .accept, .conn .queueStream,
      .turn, .conn (.datagram [2]), .conn .read, .conn .queueDatagram, .conn (.datagram []), .conn .read,
      .conn .queueDatagram, .turn]).map (fun s => (s.taken, s.conn.object.events)) =
        some ([[1], [2]], some [.datagram []]) := by decide +kernel
  obtain ⟨s, hs, he⟩ := Option.map_eq_some_iff.1 hrun
  simp only [Prod.mk.injEq] at he
  exact ⟨s, hs, he.1, he.2, ((datagrams_in_order ⟨true, true, .inr rfl⟩ hs).1 _ he.2).1⟩

end Receiver
end Gdiroh.Raw
