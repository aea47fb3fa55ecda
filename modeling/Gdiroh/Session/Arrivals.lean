/-
A session's reader tasks against whatever arrives. Nothing is assumed of the
other ends here: a stream opens on any connection whose readers run, its
bytes are any bytes, and so are the datagrams.

A reader that ends early reads nothing more, which is a run in which it takes
no further step.
-/
import Gdiroh.Session.Readers

namespace Gdiroh.Session
open BigEndian Framing

/-- An incoming stream and its reader (`read_stream`). -/
structure Incoming where
  peer : Int32
  /-- The channel header, once it is read. -/
  channel : Option Int32 := none
  /-- Arrived and not yet read. -/
  buffer : Bytes := []
deriving DecidableEq

/-- The readers of all connections (`spawn_readers`). -/
structure Arrivals where
  streams : List Incoming := []
  /-- What the datagram reader of each connection remembers. -/
  last : Connection → Last := fun _ => ∅

inductive Arrival where
  /-- The stream acceptor of a connection takes a stream. -/
  | stream (c : Connection)
  /-- Bytes arrive on a stream. -/
  | bytes (i : Nat) (bytes : Bytes)
  /-- A stream's reader reads the channel header. -/
  | header (i : Nat)
  /-- A stream's reader reads a frame. -/
  | frame (i : Nat)
  /-- The datagram reader of a connection reads a datagram. -/
  | datagram (c : Connection) (datagram : Bytes)

namespace Arrivals

def setStream (r : Arrivals) (i : Nat) (s : Incoming) : Arrivals := { r with streams := r.streams.set i s }

/-- One step of a reader, and what it reports. `started` is the connections
with running readers and the peer each was started for. -/
def step (started : List (Connection × Int32)) (r : Arrivals) : Arrival → Option (Arrivals × Option Report)
  | .stream c =>
    (started.lookup c).map fun peer => ({ r with streams := r.streams ++ [{ peer := peer }] }, none)
  | .bytes i bytes =>
    r.streams[i]?.map fun s => (r.setStream i { s with buffer := s.buffer ++ bytes }, none)
  | .header i =>
    r.streams[i]?.bind fun s =>
      if s.channel.isSome then none
      else (getI32 s.buffer).map fun (channel, rest) =>
        (r.setStream i { s with channel := some channel, buffer := rest }, none)
  | .frame i =>
    r.streams[i]?.bind fun s => s.channel.bind fun channel => (nextFrame s.buffer).map fun (frame, rest) =>
      (r.setStream i { s with buffer := rest }, readFrame s.peer channel frame)
  | .datagram c datagram =>
    (started.lookup c).map fun peer =>
      let (last, packet) := readDatagram peer (r.last c) datagram
      ({ r with last := Function.update r.last c last }, packet.map .packet)

end Arrivals
end Gdiroh.Session
