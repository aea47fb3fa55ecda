/-
The other half of `IrohPeer` (`peer.rs`): the session it holds, what `poll`
makes of the session's events, and what it hands to Godot.

A `Session` is held as the session itself and the number of its events that
were received; the receiver goes with it, so a session that is closed,
dropped or replaced is not heard of any more. Its task is only told to end
then, so a session that is held does not close by itself.
-/
import Gdiroh.Peer
import Gdiroh.Session.Finality

namespace Gdiroh
open Session

def fromSessionMode : Mode → TransferMode
  | .unreliable => .unreliable
  | .unreliableOrdered => .unreliableOrdered
  | .reliable => .reliable

/-- A packet on its way to Godot. -/
structure PeerPacket where
  peer : Int32
  channel : Int32
  mode : TransferMode
  data : Bytes
deriving DecidableEq

inductive Signal where
  | peerConnected (id : Int32)
  | peerDisconnected (id : Int32)
  | warning (text : String)
deriving DecidableEq

/-- `Session`, as its owner holds it. -/
structure SessionHandle where
  life : Life
  /-- How many of its events were received. -/
  received : Nat := 0

namespace SessionHandle

/-- What `try_recv` has yet to give. -/
def waiting (h : SessionHandle) : List Event := h.life.events.drop h.received

/-- After `try_recv` gave everything. -/
def drained (h : SessionHandle) : SessionHandle := { h with received := h.life.events.length }

/-- The session goes on, as long as it is held. -/
def step (h : SessionHandle) : Life.Act → Option SessionHandle
  | .act (.turn (.close _)) => none
  | a => (h.life.step a).map fun life => { h with life := life }

end SessionHandle

structure Front where
  session : Option SessionHandle := none
  uniqueId : Int32 := 0
  status : ConnectionStatus := .disconnected
  /-- Packets waiting to be handed to Godot. -/
  incoming : List PeerPacket := []
  /-- The packet most recently handed out. -/
  current : Option PeerPacket := none
  /-- The signals emitted. -/
  emitted : List Signal := []

namespace Front

/-- Starts a session as the host, if the endpoint is bound. -/
def host (p : Front) (bound registered running : Bool) : Front × Bool :=
  if ¬ bound then (p, false)
  else ({ p with
    session := some { life := .host registered running }
    uniqueId := hostId
    status := .connecting }, true)

/-- Shared tail of `join` and `join_ticket`. `itself` is whether the host is
the endpoint's own id. -/
def startJoin (p : Front) (bound itself running : Bool) : Front × Bool :=
  if ¬ bound then (p, false)
  else if itself then (p, false)
  else ({ p with session := some { life := .join running }, status := .connecting }, true)

/-- Joins by an endpoint id, if it is a valid one. -/
def join (p : Front) (valid bound itself running : Bool) : Front × Bool :=
  if ¬ valid then (p, false) else p.startJoin bound itself running

/-- Joins by a ticket, if it is a valid one. -/
def joinTicket (p : Front) (valid bound itself running : Bool) : Front × Bool :=
  if ¬ valid then (p, false) else p.startJoin bound itself running

def close (p : Front) : Front :=
  { p with session := none, incoming := [], current := none, uniqueId := 0, status := .disconnected }

def emit (p : Front) (signal : Signal) : Front := { p with emitted := p.emitted ++ [signal] }

def handle (p : Front) : Event → Front
  | .ready id => { p with uniqueId := id, status := .connected }
  | .peerConnected id => p.emit (.peerConnected id)
  | .peerDisconnected id => p.emit (.peerDisconnected id)
  | .packet q => { p with incoming := p.incoming ++ [⟨q.peer, q.channel, fromSessionMode q.mode, q.data⟩] }
  | .warning text => p.emit (.warning text)
  | .closed _ => { p with session := none, uniqueId := 0, status := .disconnected }

/-- The events of the session that `poll` takes out up front. -/
def waiting (p : Front) : List Event := (p.session.map (·.waiting)).getD []

def drain (p : Front) : Front := { p with session := p.session.map (·.drained) }

/-- Called by `MultiplayerAPI` every frame. -/
def poll (p : Front) : Front := p.waiting.foldl handle p.drain

/-- Takes the next packet and keeps it. -/
def popPacket (p : Front) : Front × Option PeerPacket :=
  match p.incoming with
  | [] => (p, none)
  | packet :: rest => ({ p with incoming := rest, current := some packet }, some packet)

/-- The path `MultiplayerAPI` uses; `none` is `ERR_UNAVAILABLE`. -/
def getPacketRawptr (p : Front) : Front × Option Bytes := (p.popPacket.1, p.popPacket.2.map (·.data))

def getPacketScript (p : Front) : Front × Bytes := (p.popPacket.1, (p.popPacket.2.map (·.data)).getD [])

def isServer (p : Front) : Bool := p.uniqueId = hostId

end Front
end Gdiroh
