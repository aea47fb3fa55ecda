/-
A hosting session and any number of joining ones, at the level of whole
frames: each link and channel is a queue in the order its frames were handed
over, and datagrams arrive in any order or not at all.

A joining session is named by the connection it dialled. All of them exist
from the start; one takes part once the host accepts its connection. Each
session is its task's state, the queue from its reader tasks to its task,
and its datagram readers' memory. Every action below is one turn of one
task: a session task's `select` loop, a stream or datagram reader, a close
watcher, or the network.

Frames stay queued when their connection is lost: losing it means that no
more of them need ever be read. A watcher reports a loss once.
-/
import Gdiroh.Session.Handed
import Gdiroh.Session.Readers
import Gdiroh.Lib.Machine
import Mathlib.Data.Finset.Prod

namespace Gdiroh.Session

/-- A session of the cluster. -/
inductive Node where
  | host
  | client (c : Connection)
deriving DecidableEq

/-- A session with its tasks' queues. -/
structure Member where
  state : State
  internal : List Internal := []
  last : Connection → Last := fun _ => ∅

/-- A reader task passes something on. -/
def Member.report (m : Member) : Report → Member
  | .packet p => { m with state := m.state.emit (.packet p) }
  | .control c => { m with internal := m.internal ++ [.control c] }

structure Cluster where
  members : Node → Member
  nextId : Int32 := firstClientId
  /-- Connections the host has accepted. -/
  accepted : Finset Connection := ∅
  /-- Connections that have ended. -/
  lost : Finset Connection := ∅
  /-- Close watchers that have reported. -/
  watched : Finset (Node × Connection) := ∅
  /-- How many frames of a stream its reader has read: the stream of a
  sender, a connection and a channel. -/
  read : Node → Connection → Int32 → Nat := fun _ _ _ => 0
  /-- Datagrams that have arrived, by their place in the sender's log. -/
  arrived : Finset (Node × Nat) := ∅
  /-- The packets each session was given, with the connection each came
  over. -/
  log : Node → List (Connection × Packet) := fun _ => []

namespace Cluster

def init : Cluster where
  members
    | .host => { state := State.hosting }
    | .client c => { state := State.joined c }

inductive Action where
  /-- The host's accept arm takes a connection. -/
  | accept (c : Connection) (existing : List Int32)
  /-- A session's command arm takes a send. -/
  | send (n : Node) (limits : Limits) (keys : List Int32) (target channel : Int32) (mode : Mode) (data : Bytes)
  /-- A session's command arm takes a disconnect. -/
  | disconnect (n : Node) (peer : Int32)
  /-- A session's internal arm takes the next message. -/
  | handle (n : Node) (others : List Int32)
  /-- A connection ends. -/
  | lose (c : Connection)
  /-- A session's close watcher reports the end of a connection. -/
  | watch (n : Node) (c : Connection)
  /-- The next frame `n` wrote on a connection and channel is read. -/
  | readFrame (n : Node) (c : Connection) (channel : Int32)
  /-- One of the datagrams `n` sent is read. -/
  | readDatagram (n : Node) (i : Nat)

/-- The session at the other end of a sender's connection. -/
def other : Node → Connection → Option Node
  | .host, c => some (.client c)
  | .client c, d => if c = d then some .host else none

/-- Who reads what `n` sends on a connection, and under which peer id: the
id its reader tasks were started with. -/
def receiver (k : Cluster) (n : Node) (c : Connection) : Option (Node × Int32) :=
  (other n c).bind fun r => ((k.members r).state.readers.lookup c).map (r, ·)

def set (k : Cluster) (n : Node) (m : Member) : Cluster := { k with members := Function.update k.members n m }

def setState (k : Cluster) (n : Node) (s : State) : Cluster := k.set n { k.members n with state := s }

/-- A reader of a connection passes something on to its session. -/
def report (k : Cluster) (r : Node) (c : Connection) : Option Report → Cluster
  | none => k
  | some rep => { k.set r ((k.members r).report rep) with
      log := match rep with
        | .packet p => Function.update k.log r (k.log r ++ [(c, p)])
        | .control _ => k.log }

/-- One more frame of a stream is read. -/
def countRead (k : Cluster) (n : Node) (c : Connection) (channel : Int32) : Cluster :=
  { k with read := fun m d ch => if m = n ∧ d = c ∧ ch = channel then k.read n c channel + 1 else k.read m d ch }

/-- The receiving end reads one frame that `n` wrote. -/
def receive (k : Cluster) (n : Node) (c : Connection) (channel : Int32) (frame : Bytes) : Option Cluster :=
  (k.receiver n c).map fun (r, peer) =>
    (k.report r c (Session.readFrame peer channel frame)).countRead n c channel

/-- A datagram reader's memory changes. -/
def remember (k : Cluster) (r : Node) (c : Connection) (last : Last) : Cluster :=
  k.set r { k.members r with last := Function.update (k.members r).last c last }

/-- The receiving end reads one datagram that `n` sent. -/
def receiveDatagram (k : Cluster) (n : Node) (c : Connection) (datagram : Bytes) : Option Cluster :=
  (k.receiver n c).map fun (r, peer) =>
    let (last, packet) := Session.readDatagram peer ((k.members r).last c) datagram
    (k.remember r c last).report r c (packet.map .packet)

def step (k : Cluster) : Action → Option Cluster
  | .accept c existing =>
    let s := (k.members .host).state
    if c ∉ k.accepted ∧ existing.Perm s.links.keys then
      some { k.setState .host (s.welcome existing k.nextId c) with
        nextId := followingId k.nextId
        accepted := insert c k.accepted }
    else none
  | .send n limits keys target channel mode data =>
    let s := (k.members n).state
    if keys.Perm s.links.keys then some (k.setState n (s.send limits keys target channel mode data)) else none
  | .disconnect n peer =>
    let s := (k.members n).state
    some { k.setState n (s.dropLink peer) with
      lost := match s.connOf peer with
        | some c => insert c k.lost
        | none => k.lost }
  | .handle n others =>
    let m := k.members n
    match m.internal with
    | [] => none
    | .control c :: rest => some (k.set n { m with state := m.state.apply c, internal := rest })
    | .lost peer :: rest =>
      if others.Perm (m.state.links.erase peer).keys then
        some (k.set n { m with state := m.state.lost others peer, internal := rest })
      else none
  | .lose c => some { k with lost := insert c k.lost }
  | .watch n c =>
    let m := k.members n
    match m.state.readers.lookup c with
    | none => none
    | some peer =>
      if c ∈ k.lost ∧ (n, c) ∉ k.watched then
        some { k.set n { m with internal := m.internal ++ [.lost peer] } with
          watched := insert (n, c) k.watched }
      else none
  | .readFrame n c channel =>
    match ((k.members n).state.handed c channel)[k.read n c channel]? with
    | none => none
    | some frame => k.receive n c channel frame
  | .readDatagram n i =>
    match (k.members n).state.datagrams[i]? with
    | none => none
    | some (c, datagram) =>
      if (n, i) ∉ k.arrived then
        (k.receiveDatagram n c datagram).map fun k => { k with arrived := insert (n, i) k.arrived }
      else none

end Cluster
end Gdiroh.Session
