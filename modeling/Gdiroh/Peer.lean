/-
The sending half of `IrohPeer` (`peer.rs`): what a script sets, and what
`put_packet` makes of it. A peer's session is the commands sent to it, oldest
first; the session task takes them from there.
-/
import Gdiroh.Session.State

namespace Gdiroh
open Session

/-- Godot's transfer mode, an open enumeration. -/
structure TransferMode where
  ord : Int32
deriving DecidableEq

namespace TransferMode

def unreliable : TransferMode := ⟨0⟩

def unreliableOrdered : TransferMode := ⟨1⟩

def reliable : TransferMode := ⟨2⟩

end TransferMode

inductive ConnectionStatus where
  | disconnected
  | connecting
  | connected
deriving DecidableEq

/-- The errors `put_packet` returns. -/
inductive GodotError where
  | ok
  | errUnconfigured
  | errInvalidParameter
deriving DecidableEq

def toSessionMode (mode : TransferMode) : Mode :=
  if mode = .unreliable then .unreliable
  else if mode = .unreliableOrdered then .unreliableOrdered
  else .reliable

structure IrohPeer where
  session : Option (List Command) := none
  targetPeer : Int32 := 0
  transferChannel : Int32 := 0
  transferMode : TransferMode := .reliable
  status : ConnectionStatus := .disconnected
deriving DecidableEq

namespace IrohPeer

def setTransferChannel (p : IrohPeer) (channel : Int32) : IrohPeer := { p with transferChannel := channel }

def setTransferMode (p : IrohPeer) (mode : TransferMode) : IrohPeer := { p with transferMode := mode }

def setTargetPeer (p : IrohPeer) (peer : Int32) : IrohPeer := { p with targetPeer := peer }

/-- Queues a packet for the current target, channel and transfer mode. -/
def send (p : IrohPeer) (data : Bytes) : IrohPeer × GodotError :=
  if p.status ≠ .connected then (p, .errUnconfigured)
  else
    match p.session with
    | none => (p, .errUnconfigured)
    | some commands =>
      ({ p with session := some (commands ++
          [.send p.targetPeer p.transferChannel (toSessionMode p.transferMode) data]) }, .ok)

/-- Takes a packet from Godot, by the size it gives. -/
def putPacketRawptr (p : IrohPeer) (buffer : Bytes) (size : Int32) : IrohPeer × GodotError :=
  if size < 0 then (p, .errInvalidParameter)
  else p.send (if size = 0 then [] else buffer.take size.toNatClampNeg)

/-- Sends a packet on the current channel and transfer mode. -/
def putPacketScript (p : IrohPeer) (buffer : Bytes) : IrohPeer × GodotError := p.send buffer

end IrohPeer
end Gdiroh
