/-
The state the session task owns (`State` in `session.rs`) and its methods,
one Lean function per method, under the source's names.

What a method does to the rest of the world goes to logs that only grow:
`events` is everything sent to the main thread, `writers` the stream writer
tasks spawned, `queued` the frames sent to their queues, `datagrams` the
datagrams handed to QUIC, `readers` the reader tasks spawned, `closes` the
connections closed. A sender half kept in a link is the place of its writer
in `writers`.

A `HashMap` yields its keys in no fixed order, so a method that walks the
links takes that order as an argument. Likewise `max_datagram_size`, which
the connection answers as it is asked. Negating `i32::MIN` wraps, as in the
release build.
-/
import Gdiroh.Session.Control
import Mathlib.Data.List.AList
import Mathlib.Data.Finset.Basic

namespace Gdiroh.Session
open BigEndian

/-- Peer id Godot reserves for the host. -/
def hostId : Int32 := 1

/-- Stream channel reserved for membership messages. -/
def controlChannel : Int32 := Int32.minValue

/-- First id hosts hand out; 1 is always the host itself. -/
def firstClientId : Int32 := 2

/-- Stream header plus frame header, in bytes. -/
def datagramHeader : Nat := 8

/-- How a packet should be carried. -/
inductive Mode where
  | reliable
  | unreliable
  | unreliableOrdered
deriving DecidableEq

/-- A packet crossing between the network and Godot. -/
structure Packet where
  peer : Int32
  channel : Int32
  mode : Mode
  data : Bytes
deriving DecidableEq

/-- Something the main thread needs to know about. -/
inductive Event where
  /-- Our own peer id is settled. Hosts get this immediately. -/
  | ready (id : Int32)
  | peerConnected (id : Int32)
  | peerDisconnected (id : Int32)
  | packet (packet : Packet)
  | warning (text : String)
  /-- The session ended and will produce nothing further. -/
  | closed (reason : String)
deriving DecidableEq

/-- Work handed to the session task. -/
inductive Command where
  | send (target channel : Int32) (mode : Mode) (data : Bytes)
  | disconnect (peer : Int32)
  | close
deriving DecidableEq

/-- Reported by a connection's reader tasks back to the session task. -/
inductive Internal where
  | control (control : Control)
  | lost (peer : Int32)
deriving DecidableEq

/-- A QUIC connection, by identity. -/
abbrev Connection := Nat

/-- What `max_datagram_size` answers for each connection. -/
abbrev Limits := Connection → Option Nat

/-- One connected peer. -/
structure Link where
  connection : Connection
  /-- Lazily opened writer task per reliable channel. -/
  reliable : AList fun _ : Int32 => Nat
  /-- Last sequence number sent per channel, for ordered datagrams. -/
  sequences : AList fun _ : Int32 => UInt32
  /-- Channels already warned about oversized datagrams. -/
  warned : Finset Int32

structure State where
  isHost : Bool
  links : AList fun _ : Int32 => Link := ∅
  /-- Peers the main thread has been told about. -/
  announced : Finset Int32 := ∅
  /-- The connections the main thread reads for diagnostics. -/
  connections : AList fun _ : Int32 => Connection := ∅
  events : List Event := []
  readers : List (Connection × Int32) := []
  writers : List (Connection × Int32) := []
  queued : List (Nat × Bytes) := []
  datagrams : List (Connection × Bytes) := []
  closes : List (Connection × String) := []

/-- The text of the oversize warning. -/
def oversizeWarning (size limit : Nat) (channel : Int32) : String :=
  s!"packet of {size} bytes exceeds the {limit - datagramHeader} byte datagram limit on channel " ++
    s!"{channel}; sending it reliably instead"

/-- The next value of a channel's counter. Zero is reserved for
"unordered", so it is skipped on wrap. -/
def Link.nextSequence (link : Link) (channel : Int32) : UInt32 :=
  max ((link.sequences.lookup channel).getD 0 + 1) 1

/-- The sequence number `write_datagram` gives a datagram. -/
def Link.sequence (link : Link) (channel : Int32) (mode : Mode) : UInt32 :=
  if mode = .unreliableOrdered then link.nextSequence channel else 0

/-- The link with the counter moved on, in the ordered mode. -/
def Link.count (link : Link) (channel : Int32) (mode : Mode) : Link :=
  if mode = .unreliableOrdered then
    { link with sequences := link.sequences.insert channel (link.nextSequence channel) }
  else link

/-- A datagram: channel, sequence, payload. -/
def frameDatagram (channel : Int32) (sequence : UInt32) (data : Bytes) : Bytes :=
  putI32 channel ++ putU32 sequence ++ data

theorem length_frameDatagram (channel : Int32) (sequence : UInt32) (data : Bytes) :
    (frameDatagram channel sequence data).length = datagramHeader + data.length := by
  simp only [frameDatagram, List.length_append, length_putI32, length_putU32, datagramHeader]

namespace State

/-- `self.events.send(..)`. -/
def emit (s : State) (e : Event) : State := { s with events := s.events ++ [e] }

/-- Registers a connection and starts its reader tasks. -/
def addLink (s : State) (peer : Int32) (connection : Connection) : State :=
  { s with
    connections := s.connections.insert peer connection
    readers := s.readers ++ [(connection, peer)]
    links := s.links.insert peer ⟨connection, ∅, ∅, ∅⟩ }

/-- Appends to the peer's stream for this channel, opening one on first use. -/
def writeReliable (s : State) (peer channel : Int32) (data : Bytes) : State :=
  match s.links.lookup peer with
  | none => s
  | some link =>
    match link.reliable.lookup channel with
    | some writer => { s with queued := s.queued ++ [(writer, data)] }
    | none =>
      { s with
        links := s.links.insert peer
          { link with reliable := link.reliable.insert channel s.writers.length }
        writers := s.writers ++ [(link.connection, channel)]
        queued := s.queued ++ [(s.writers.length, data)] }

def controlTo (s : State) (peer : Int32) (control : Control) : State :=
  s.writeReliable peer controlChannel control.encode

/-- Reports a peer as connected, once. -/
def announce (s : State) (peer : Int32) : State :=
  if peer ∈ s.announced then s
  else { s with announced := insert peer s.announced }.emit (.peerConnected peer)

/-- Reports a peer as gone, but only if it was ever announced. -/
def forget (s : State) (peer : Int32) : State :=
  if peer ∈ s.announced then { s with announced := s.announced.erase peer }.emit (.peerDisconnected peer)
  else s

/-- Host side: greet a freshly accepted peer and tell everyone else.
`existing` is the keys of `links`. -/
def welcome (s : State) (existing : List Int32) (peer : Int32) (connection : Connection) : State :=
  let s := s.addLink peer connection
  let s := s.controlTo peer (.welcome peer existing)
  let s := existing.foldl (fun s other => s.controlTo other (.peerJoined peer)) s
  s.announce peer

/-- Client side: act on a membership message from the host. -/
def apply (s : State) : Control → State
  | .welcome yourId peers => peers.foldl announce ((s.emit (.ready yourId)).announce hostId)
  | .peerJoined id => s.announce id
  | .peerLeft id => s.forget id

/-- `others` is the keys of `links` once `peer` is removed. -/
def lost (s : State) (others : List Int32) (peer : Int32) : State :=
  if peer ∈ s.links then
    let s := { s with links := s.links.erase peer, connections := s.connections.erase peer }
    let s := s.forget peer
    if s.isHost then others.foldl (fun s other => s.controlTo other (.peerLeft peer)) s
    else if peer = hostId then s.emit (.closed "host disconnected")
    else s
  else s

/-- Closes a peer's connection; the rest happens in `lost`. -/
def dropLink (s : State) (peer : Int32) : State :=
  match s.links.lookup peer with
  | none => s
  | some link => { s with closes := s.closes ++ [(link.connection, "disconnected")] }

/-- The oversize branch up to its reliable write: the channel's first time
is worth a warning. -/
def warnOversize (s : State) (peer channel : Int32) (data : Bytes) (limit : Nat) (link : Link) : State :=
  if channel ∈ link.warned then { s with links := s.links.insert peer link }
  else
    let link := { link with warned := insert channel link.warned }
    { s with links := s.links.insert peer link }.emit (.warning (oversizeWarning data.length limit channel))

def writeDatagram (s : State) (limits : Limits) (peer channel : Int32) (mode : Mode) (data : Bytes) : State :=
  match s.links.lookup peer with
  | none => s
  | some link =>
    let framed := frameDatagram channel (link.sequence channel mode) data
    let limit := (limits link.connection).getD 0
    -- Oversized payloads go out reliably rather than being dropped.
    if limit < framed.length then
      (s.warnOversize peer channel data limit (link.count channel mode)).writeReliable peer channel data
    else { s with
      links := s.links.insert peer (link.count channel mode)
      datagrams := s.datagrams ++ [(link.connection, framed)] }

def sendOne (s : State) (limits : Limits) (peer channel : Int32) (mode : Mode) (data : Bytes) : State :=
  match mode with
  | .reliable => s.writeReliable peer channel data
  | .unreliable | .unreliableOrdered => s.writeDatagram limits peer channel mode data

/-- Routes a packet, following Godot's target convention: `0` is everyone,
a negative id is everyone except that peer, positive is one peer. `keys` is
the keys of `links`. -/
def send (s : State) (limits : Limits) (keys : List Int32) (target channel : Int32) (mode : Mode)
    (data : Bytes) : State :=
  if target ≤ 0 then
    (keys.filter (· ≠ -target)).foldl (fun s peer => s.sendOne limits peer channel mode data) s
  else
    -- Anything not directly connected goes to the host.
    s.sendOne limits (if target ∈ s.links then target else hostId) channel mode data

/-- The end of `run`: every link is closed and the last event goes out.
`drained` is `links` in the order it is drained. -/
def finish (s : State) (drained : List Connection) : State :=
  { s with
    links := ∅
    closes := s.closes ++ drained.map (·, "closing") }.emit (.closed "session closed")

end State

/-- Where a host's `run` starts its loop. -/
def State.hosting : State := { isHost := true, events := [.ready hostId] }

/-- Where a client's `run` starts its loop, once it is connected. -/
def State.joined (connection : Connection) : State :=
  { isHost := false : State }.addLink hostId connection

/-- The id after `id`, as the accept arm of `run` moves on. -/
def followingId (id : Int32) : Int32 := max (id + 1) firstClientId

end Gdiroh.Session
