/-
What a connection's reader tasks make of what arrives (`spawn_readers` and
`read_stream` in `session.rs`): one turn of the stream reader's loop and one
turn of the datagram reader's. A reader reports straight to the main thread
or, for a membership message, to the session task.
-/
import Gdiroh.Session.State

namespace Gdiroh.Session
open BigEndian

/-- What a reader task sends on: a packet to the main thread, or a
membership message to the session task. -/
inductive Report where
  | packet (p : Packet)
  | control (c : Control)
deriving DecidableEq

/-- What `read_stream` does with one frame of a stream whose header named
`channel`. -/
def readFrame (peer channel : Int32) (frame : Bytes) : Option Report :=
  if channel = controlChannel then (Control.decode64 frame).map .control
  else some (.packet ⟨peer, channel, .reliable, frame⟩)

/-- The datagram reader's `last`. -/
abbrev Last := AList fun _ : Int32 => UInt32

/-- The test by which the datagram reader drops what it takes to be older
than the last one it delivered. -/
def stale (seen sequence : UInt32) : Bool :=
  sequence < seen && seen - sequence < 0xFFFFFFFF / 2

/-- One turn of the datagram reader's loop. -/
def readDatagram (peer : Int32) (last : Last) (datagram : Bytes) : Last × Option Packet :=
  if datagram.length < datagramHeader then (last, none)
  else
    match getI32 datagram with
    | none => (last, none)
    | some (channel, rest) =>
      match getU32 rest with
      | none => (last, none)
      | some (sequence, data) =>
        if sequence = 0 then (last, some ⟨peer, channel, .unreliable, data⟩)
        else
          let seen := (last.lookup channel).getD 0
          if stale seen sequence then (last.insert channel seen, none)
          else (last.insert channel sequence, some ⟨peer, channel, .unreliableOrdered, data⟩)

theorem readFrame_of_ne {channel : Int32} (h : channel ≠ controlChannel) (peer : Int32) (frame : Bytes) :
    readFrame peer channel frame = some (.packet ⟨peer, channel, .reliable, frame⟩) := by
  simp [readFrame, h]

/-- Whatever arrives, a datagram's packet names the reader's peer and is not
a reliable one. -/
theorem readDatagram_some {peer : Int32} {last : Last} {datagram : Bytes} {p : Packet}
    (h : (readDatagram peer last datagram).2 = some p) : p.peer = peer ∧ p.mode ≠ .reliable := by
  unfold readDatagram at h
  split at h
  · simp at h
  split at h
  · simp at h
  split at h
  · simp at h
  split at h
  · rw [← Option.some.inj h]
    exact ⟨rfl, by simp⟩
  dsimp only at h
  split at h
  · simp at h
  · rw [← Option.some.inj h]
    exact ⟨rfl, by simp⟩

/-- A datagram's fields are read as they were written. -/
theorem readDatagram_frameDatagram (peer : Int32) (last : Last) (channel : Int32) (sequence : UInt32)
    (data : Bytes) : readDatagram peer last (frameDatagram channel sequence data) =
      if sequence = 0 then (last, some ⟨peer, channel, .unreliable, data⟩)
      else if stale ((last.lookup channel).getD 0) sequence then
        (last.insert channel ((last.lookup channel).getD 0), none)
      else (last.insert channel sequence, some ⟨peer, channel, .unreliableOrdered, data⟩) := by
  have hlen : ¬ (frameDatagram channel sequence data).length < datagramHeader := by
    rw [length_frameDatagram]
    omega
  rw [readDatagram, if_neg hlen]
  simp only [frameDatagram, List.append_assoc, getI32_putI32, getU32_putU32]

/-- A packet that a datagram yields is on the datagram's channel and carries
what follows its header. -/
theorem readDatagram_packet {peer : Int32} {last : Last} {channel : Int32} {sequence : UInt32} {data : Bytes}
    {p : Packet} (h : (readDatagram peer last (frameDatagram channel sequence data)).2 = some p) :
    p.peer = peer ∧ p.channel = channel ∧ p.data = data ∧ p.mode ≠ .reliable := by
  rw [readDatagram_frameDatagram] at h
  split at h
  · simp only [Option.some.injEq] at h
    subst h
    simp
  split at h
  · simp at h
  · simp only [Option.some.injEq] at h
    subst h
    simp

end Gdiroh.Session
