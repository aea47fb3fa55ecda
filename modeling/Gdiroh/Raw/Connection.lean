/-
A raw connection: `dial`, `adopt` and `pump` in `raw.rs`, and the
`IrohConnection` that script has of it (`connection.rs`).

The QUIC connection itself is in few words. It is there once the handshake is
done, and open until one side closes it, it is lost, or the last clone of its
handle goes; what arrives on it waits until a task takes it, also when the
connection has ended meanwhile. Who has a clone is `held`.

A task that waits and then sends is two steps, so that anything can come in
between; it ends when the receiver is gone. `_drain` and the script's calls
run on the main thread, one step each. `get_datagram` waits for an event and
handles it, again and again until it has a datagram: a step for each event.
-/
import Gdiroh.Lib.Bytes
import Gdiroh.Lib.Machine

namespace Gdiroh.Raw

/-- Something that happened on a raw connection. -/
inductive Event where
  /-- The handshake finished; the event has a clone of the handle. -/
  | opened
  /-- The remote opened a stream to us. -/
  | stream (id : Nat)
  | datagram (data : Bytes)
  /-- The connection ended, cleanly or otherwise. Nothing follows it. -/
  | closed (reason : String)
deriving DecidableEq

/-- A signal of `IrohConnection`. -/
inductive Signal where
  | opened
  | failed (reason : String)
  | streamOpened (id : Nat)
  | datagramReceived (data : Bytes)
  | closed (reason : String)
deriving DecidableEq

structure IrohConnection where
  /-- The receiver, with what waits in it. Present until the connection ends. -/
  events : Option (List Event)
  /-- The handle is there. -/
  connection : Bool
  /-- Datagrams waiting for `get_datagram`. -/
  datagrams : List Bytes := []
  ticking : Bool
  /-- The signals emitted. -/
  emitted : List Signal := []
  /-- Everything handled so far. -/
  handled : List Event := []

namespace IrohConnection

def emitLater (o : IrohConnection) (signal : Signal) : IrohConnection := { o with emitted := o.emitted ++ [signal] }

def handle (o : IrohConnection) (e : Event) : IrohConnection :=
  let o := { o with handled := o.handled ++ [e] }
  match e with
  | .opened => { o with connection := true }.emitLater .opened
  | .stream id => o.emitLater (.streamOpened id)
  | .datagram data => { o with datagrams := o.datagrams ++ [data] }.emitLater (.datagramReceived data)
  | .closed reason =>
    -- A connection that never opened failed to dial; one that did has ended.
    { o with connection := false, events := none, ticking := false }.emitLater
      (if o.connection then .closed reason else .failed reason)

/-- Pulls in whatever the runtime has produced since the last call. -/
def drainPending (o : IrohConnection) : IrohConnection :=
  match o.events with
  | none => o
  | some pending => pending.foldl handle { o with events := some [] }

/-- `get_datagram` takes an event: a datagram it returns, anything else it
handles. -/
def recvBlocking (o : IrohConnection) : Option IrohConnection :=
  match o.events with
  | some (.datagram data :: rest) =>
    some { o with events := some rest, handled := o.handled ++ [.datagram data] }
  | some (e :: rest) => some ({ o with events := some rest }.handle e)
  | _ => none

/-- What `close` leaves of the object. -/
def close (o : IrohConnection) : IrohConnection := { o with connection := false, events := none, ticking := false }

end IrohConnection

/-- The dial task. -/
inductive Dial where
  /-- In `connect`. -/
  | dialling
  /-- It has the connection. -/
  | connected
  /-- It has sent `Opened`, and is about to start the pump. -/
  | sent
  | over
deriving DecidableEq

/-- A task that takes things from the connection and sends them on. -/
inductive Hand (α : Type) where
  | off
  | waiting
  | holding (x : α)
deriving DecidableEq

structure Conn where
  /-- The runtime is up. -/
  running : Bool
  dial : Dial
  established : Bool
  /-- Why the connection ended, once it has. -/
  ended : Option String := none
  /-- Streams that arrived and were not accepted yet. -/
  streams : List Nat := []
  /-- Datagrams that arrived and were not read yet. -/
  datagrams : List Bytes := []
  acceptor : Hand Nat := .off
  reader : Hand Bytes := .off
  /-- The close watcher runs. -/
  watcher : Bool := false
  /-- How many tasks wait in `open_bi`. -/
  opening : Nat := 0
  object : IrohConnection
  /-- Script has called `close`. -/
  closed : Bool := false
  /-- Script has dropped the last reference. -/
  dropped : Bool := false
  /-- Every event queued. -/
  sent : List Event := []
  /-- What arrived, as the events to be made of it. -/
  arrived : List Event := []

namespace Conn

/-- `raw::dial`, wrapped; `tree` is whether there is a scene tree. -/
def dialled (running tree : Bool) : Conn :=
  if running then
    { running, dial := .dialling, established := false,
      object := { events := some [], connection := false, ticking := tree } }
  else
    let failed := [Event.closed "the network runtime is not running"]
    { running, dial := .over, established := false, sent := failed,
      object := { events := some failed, connection := false, ticking := tree } }

/-- `raw::adopt`, wrapped. -/
def accepted (running tree : Bool) : Conn :=
  { running, dial := .over, established := true
    acceptor := if running then .waiting else .off
    reader := if running then .waiting else .off
    watcher := running
    object := { events := some [], connection := true, ticking := tree } }

/-- Somebody has a clone of the handle. -/
def held (c : Conn) : Bool :=
  c.dial = .connected || c.dial = .sent || c.object.events.any (·.contains .opened) || c.object.connection ||
    c.acceptor ≠ .off || c.reader ≠ .off || c.watcher || 0 < c.opening

/-- The QUIC connection is open. -/
def isOpen (c : Conn) : Bool := c.established && c.ended.isNone && c.held

/-- `events.send(..)`, which fails when the receiver is gone. -/
def send (c : Conn) (e : Event) : Conn :=
  match c.object.events with
  | none => c
  | some queue => { c with object := { c.object with events := some (queue ++ [e]) }, sent := c.sent ++ [e] }

inductive Act where
  /-- The dial is answered. -/
  | answered
  /-- The dial fails. -/
  | refused (text : String)
  /-- The dial task sends `Opened`. -/
  | opened
  /-- The dial task starts the pump. -/
  | pump
  /-- A stream arrives. -/
  | stream (id : Nat)
  /-- A datagram arrives. -/
  | datagram (data : Bytes)
  /-- The remote closes the connection, or it is lost. -/
  | ends (reason : String)
  /-- The stream acceptor takes a stream. -/
  | accept
  /-- It sends it on. -/
  | queueStream
  /-- There are no more, and it ends. -/
  | stopAccepting
  /-- The datagram reader takes a datagram. -/
  | read
  | queueDatagram
  | stopReading
  /-- The close watcher reports. -/
  | watch
  /-- `_drain`, or `get_available_datagram_count`. -/
  | drain
  /-- `get_datagram` takes an event. -/
  | recv
  | openStream
  /-- A task is through with `open_bi`. -/
  | streamOpened
  | close (reason : String)
  | drop

def step (c : Conn) : Act → Option Conn
  | .answered => if c.dial = .dialling then some { c with dial := .connected, established := true } else none
  | .refused text => if c.dial = .dialling then some ({ c with dial := .over }.send (.closed text)) else none
  | .opened =>
    if c.dial = .connected then
      -- Without a receiver the send fails, and there is no pump.
      some ({ c with dial := if c.object.events.isSome then .sent else .over }.send .opened)
    else none
  | .pump =>
    if c.dial = .sent then
      some { c with dial := .over, acceptor := .waiting, reader := .waiting, watcher := true }
    else none
  | .stream id =>
    if c.isOpen then some { c with streams := c.streams ++ [id], arrived := c.arrived ++ [.stream id] } else none
  | .datagram data =>
    if c.isOpen then some { c with datagrams := c.datagrams ++ [data], arrived := c.arrived ++ [.datagram data] }
    else none
  | .ends reason => if c.isOpen then some { c with ended := some reason } else none
  | .accept =>
    match c.acceptor, c.streams with
    | .waiting, id :: rest => some { c with acceptor := .holding id, streams := rest }
    | _, _ => none
  | .queueStream =>
    match c.acceptor with
    | .holding id => some ({ c with acceptor := if c.object.events.isSome then .waiting else .off }.send (.stream id))
    | _ => none
  | .stopAccepting =>
    if c.acceptor = .waiting ∧ c.streams = [] ∧ c.ended.isSome then some { c with acceptor := .off } else none
  | .read =>
    match c.reader, c.datagrams with
    | .waiting, data :: rest => some { c with reader := .holding data, datagrams := rest }
    | _, _ => none
  | .queueDatagram =>
    match c.reader with
    | .holding data => some ({ c with reader := if c.object.events.isSome then .waiting else .off }.send (.datagram data))
    | _ => none
  | .stopReading =>
    if c.reader = .waiting ∧ c.datagrams = [] ∧ c.ended.isSome then some { c with reader := .off } else none
  | .watch =>
    if c.watcher then c.ended.map fun reason => { c with watcher := false }.send (.closed reason) else none
  | .drain => if c.dropped then none else some { c with object := c.object.drainPending }
  | .recv => if c.dropped then none else c.object.recvBlocking.map fun object => { c with object := object }
  | .openStream =>
    if c.dropped = false ∧ c.object.connection then
      some { c with opening := if c.running then c.opening + 1 else c.opening }
    else none
  | .streamOpened => if 0 < c.opening then some { c with opening := c.opening - 1 } else none
  | .close reason =>
    if c.dropped then none
    else some { c with
      object := c.object.close
      closed := true
      ended := if c.object.connection then some (c.ended.getD reason) else c.ended }
  | .drop => if c.dropped then none else some { c with object := c.object.close, dropped := true }

/-- A step of a task, which needs neither the network nor script. -/
def Act.isTask : Act → Bool
  | .opened | .pump | .accept | .queueStream | .stopAccepting | .read | .queueDatagram | .stopReading | .watch
  | .streamOpened => true
  | _ => false

/-! ## What a step does -/

/-- Each action, when it can be taken and what it leaves. -/
inductive Stepped (c : Conn) : Act → Conn → Prop
  | answered (hd : c.dial = .dialling) : Stepped c .answered { c with dial := .connected, established := true }
  | refused {text} (hd : c.dial = .dialling) : Stepped c (.refused text) ({ c with dial := .over }.send (.closed text))
  | opened (hd : c.dial = .connected) :
    Stepped c .opened ({ c with dial := if c.object.events.isSome then .sent else .over }.send .opened)
  | pump (hd : c.dial = .sent) :
    Stepped c .pump { c with dial := .over, acceptor := .waiting, reader := .waiting, watcher := true }
  | stream {id} (ho : c.isOpen = true) :
    Stepped c (.stream id) { c with streams := c.streams ++ [id], arrived := c.arrived ++ [.stream id] }
  | datagram {data} (ho : c.isOpen = true) :
    Stepped c (.datagram data) { c with datagrams := c.datagrams ++ [data], arrived := c.arrived ++ [.datagram data] }
  | ends {reason} (ho : c.isOpen = true) : Stepped c (.ends reason) { c with ended := some reason }
  | accept {id rest} (hwait : c.acceptor = .waiting) (hq : c.streams = id :: rest) :
    Stepped c .accept { c with acceptor := .holding id, streams := rest }
  | queueStream {id} (hhold : c.acceptor = .holding id) :
    Stepped c .queueStream
      ({ c with acceptor := if c.object.events.isSome then .waiting else .off }.send (.stream id))
  | stopAccepting (hwait : c.acceptor = .waiting) (hq : c.streams = []) (he : c.ended.isSome = true) :
    Stepped c .stopAccepting { c with acceptor := .off }
  | read {data rest} (hwait : c.reader = .waiting) (hq : c.datagrams = data :: rest) :
    Stepped c .read { c with reader := .holding data, datagrams := rest }
  | queueDatagram {data} (hhold : c.reader = .holding data) :
    Stepped c .queueDatagram
      ({ c with reader := if c.object.events.isSome then .waiting else .off }.send (.datagram data))
  | stopReading (hwait : c.reader = .waiting) (hq : c.datagrams = []) (he : c.ended.isSome = true) :
    Stepped c .stopReading { c with reader := .off }
  | watch {reason} (hw : c.watcher = true) (he : c.ended = some reason) :
    Stepped c .watch ({ c with watcher := false }.send (.closed reason))
  | drain (hdropped : c.dropped = false) : Stepped c .drain { c with object := c.object.drainPending }
  | recv {object} (hdropped : c.dropped = false) (hrecv : c.object.recvBlocking = some object) :
    Stepped c .recv { c with object := object }
  | openStream (hdropped : c.dropped = false) (hc : c.object.connection = true) :
    Stepped c .openStream { c with opening := if c.running then c.opening + 1 else c.opening }
  | streamOpened (hpos : 0 < c.opening) : Stepped c .streamOpened { c with opening := c.opening - 1 }
  | close {reason} (hdropped : c.dropped = false) :
    Stepped c (.close reason) { c with
      object := c.object.close
      closed := true
      ended := if c.object.connection then some (c.ended.getD reason) else c.ended }
  | drop (hdropped : c.dropped = false) : Stepped c .drop { c with object := c.object.close, dropped := true }

theorem step_cases {c c' : Conn} {a : Act} (h : step c a = some c') : Stepped c a c' := by
  cases a with
  | answered =>
    obtain ⟨hd, rfl⟩ := by simpa [step] using h
    exact .answered hd
  | refused text =>
    obtain ⟨hd, rfl⟩ := by simpa [step] using h
    exact .refused hd
  | opened =>
    simp only [step] at h
    split at h
    · next hd => exact Option.some.inj h ▸ .opened hd
    · simp at h
  | pump =>
    obtain ⟨hd, rfl⟩ := by simpa [step] using h
    exact .pump hd
  | stream id =>
    obtain ⟨ho, rfl⟩ := by simpa [step] using h
    exact .stream ho
  | datagram data =>
    obtain ⟨ho, rfl⟩ := by simpa [step] using h
    exact .datagram ho
  | ends reason =>
    obtain ⟨ho, rfl⟩ := by simpa [step] using h
    exact .ends ho
  | accept =>
    simp only [step] at h
    split at h
    · next hwait hq => exact Option.some.inj h ▸ .accept hwait hq
    · simp at h
  | queueStream =>
    simp only [step] at h
    split at h
    · next hhold => exact Option.some.inj h ▸ .queueStream hhold
    · simp at h
  | stopAccepting =>
    simp only [step] at h
    split at h
    · next hg => exact Option.some.inj h ▸ .stopAccepting hg.1 hg.2.1 hg.2.2
    · simp at h
  | read =>
    simp only [step] at h
    split at h
    · next hwait hq => exact Option.some.inj h ▸ .read hwait hq
    · simp at h
  | queueDatagram =>
    simp only [step] at h
    split at h
    · next hhold => exact Option.some.inj h ▸ .queueDatagram hhold
    · simp at h
  | stopReading =>
    simp only [step] at h
    split at h
    · next hg => exact Option.some.inj h ▸ .stopReading hg.1 hg.2.1 hg.2.2
    · simp at h
  | watch =>
    simp only [step] at h
    split at h
    · next hw =>
      obtain ⟨reason, he, rfl⟩ := Option.map_eq_some_iff.1 h
      exact .watch hw he
    · simp at h
  | drain =>
    obtain ⟨hdropped, rfl⟩ := by simpa [step] using h
    exact .drain hdropped
  | recv =>
    simp only [step] at h
    split at h
    · simp at h
    · next hdropped =>
      obtain ⟨object, hrecv, rfl⟩ := Option.map_eq_some_iff.1 h
      exact .recv (by simpa using hdropped) hrecv
  | openStream =>
    simp only [step] at h
    split at h
    · next hg => exact Option.some.inj h ▸ .openStream hg.1 hg.2
    · simp at h
  | streamOpened =>
    obtain ⟨hpos, rfl⟩ := by simpa [step] using h
    exact .streamOpened hpos
  | close reason =>
    simp only [step] at h
    split at h
    · simp at h
    · next hdropped => exact Option.some.inj h ▸ .close (by simpa using hdropped)
  | drop =>
    obtain ⟨hdropped, rfl⟩ := by simpa [step] using h
    exact .drop hdropped

/-! ## What a send leaves alone -/

section Send
variable (c : Conn) (e : Event)

theorem send_eq : c.send e = { c with
    object := { c.object with events := c.object.events.map (· ++ [e]) }
    sent := if c.object.events.isSome then c.sent ++ [e] else c.sent } := by
  obtain ⟨_, _, _, _, _, _, _, _, _, _, ⟨events, _, _, _, _, _⟩, _, _, _, _⟩ := c
  cases events with
  | none => rfl
  | some queue => rfl

@[simp] theorem send_dial : (c.send e).dial = c.dial := by rw [send_eq]
@[simp] theorem send_running : (c.send e).running = c.running := by rw [send_eq]
@[simp] theorem send_established : (c.send e).established = c.established := by rw [send_eq]
@[simp] theorem send_ended : (c.send e).ended = c.ended := by rw [send_eq]
@[simp] theorem send_acceptor : (c.send e).acceptor = c.acceptor := by rw [send_eq]
@[simp] theorem send_reader : (c.send e).reader = c.reader := by rw [send_eq]
@[simp] theorem send_watcher : (c.send e).watcher = c.watcher := by rw [send_eq]
@[simp] theorem send_opening : (c.send e).opening = c.opening := by rw [send_eq]
@[simp] theorem send_closed : (c.send e).closed = c.closed := by rw [send_eq]
@[simp] theorem send_dropped : (c.send e).dropped = c.dropped := by rw [send_eq]
@[simp] theorem send_connection : (c.send e).object.connection = c.object.connection := by rw [send_eq]
@[simp] theorem send_handled : (c.send e).object.handled = c.object.handled := by rw [send_eq]
@[simp] theorem send_streams : (c.send e).streams = c.streams := by rw [send_eq]
@[simp] theorem send_datagrams : (c.send e).datagrams = c.datagrams := by rw [send_eq]
@[simp] theorem send_arrived : (c.send e).arrived = c.arrived := by rw [send_eq]
@[simp] theorem send_sent : (c.send e).sent = if c.object.events.isSome then c.sent ++ [e] else c.sent := by
  rw [send_eq]
@[simp] theorem send_events : (c.send e).object.events = c.object.events.map (· ++ [e]) := by rw [send_eq]

end Send

end Conn
end Gdiroh.Raw
