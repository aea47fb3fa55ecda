/-
Application packets and the control channel. A script sets any `i32` as its
transfer channel, and the control channel is one of them: `i32::MIN` is
reserved by name only. What is sent there reliably, or goes out reliably for
its size, reaches `Control::decode` at the other end, and `apply` acts on
whatever it decodes to (`payload_is_obeyed`).

`harmless_iff` says exactly when what `put_packet` puts on the wire to one
connection is taken as a packet or not at all.
-/
import Gdiroh.Peer
import Gdiroh.Session.ClusterFacts

namespace Gdiroh.Session

/-- What a session puts on the wire: a frame on the stream of a channel, or
a datagram. -/
inductive Wire where
  | frame (channel : Int32) (data : Bytes)
  | datagram (bytes : Bytes)

/-- What a session has put on the wire to a connection between two states. -/
inductive Puts (s t : State) (c : Connection) : Wire → Prop
  | frame {channel data} (h : data ∈ (t.handed c channel).drop (s.handed c channel).length) :
      Puts s t c (.frame channel data)
  | datagram {bytes} (h : (c, bytes) ∈ t.datagrams.drop s.datagrams.length) : Puts s t c (.datagram bytes)

/-- A session takes what its reader reports: a packet as it comes, a control
message by applying it. -/
def State.react (r : State) : Option Report → State
  | none => r
  | some (.packet p) => r.emit (.packet p)
  | some (.control c) => r.apply c

/-- The receiving session's reaction to what comes off the wire, through the
readers of `peer`. -/
def State.receive (r : State) (peer : Int32) (last : Last) : Wire → State
  | .frame channel data => r.react (readFrame peer channel data)
  | .datagram bytes => r.react ((readDatagram peer last bytes).2.map .packet)

/-- The session emitted one packet with this channel and payload, or did
nothing. -/
def Harmless (r r' : State) (channel : Int32) (data : Bytes) : Prop :=
  r' = r ∨ ∃ p, r' = r.emit (.packet p) ∧ p.channel = channel ∧ p.data = data

/-- The session task takes a command. -/
def State.take (s : State) (limits : Limits) (keys : List Int32) : Command → State
  | .send target channel mode data => s.send limits keys target channel mode data
  | .disconnect peer => s.dropLink peer
  | .close => s

/-! ## One frame, one datagram -/

/-- A frame is harmless unless it is an order. -/
theorem harmless_frame_iff (r : State) (peer : Int32) (last : Last) (channel : Int32) (data : Bytes) :
    Harmless r (r.receive peer last (.frame channel data)) channel data ↔
      ¬ (channel = controlChannel ∧ ∃ control, Control.decode64 data = some control ∧
        ¬ control.Inert r.announced) := by
  by_cases hch : channel = controlChannel
  · rw [State.receive, readFrame, if_pos hch]
    cases hd : Control.decode64 data with
    | none => simp [State.react, Harmless]
    | some control =>
      simp only [Option.map_some, State.react, hch, true_and, Option.some.injEq, exists_eq_left', not_not]
      refine ⟨fun hh => ?_, fun hi => .inl (State.apply_inert hi)⟩
      by_contra hno
      rcases State.apply_of_not_inert hno with hann | ⟨id, new, hnew⟩
      · rcases hh with he | ⟨p, he, -⟩
        · exact hann (by rw [he])
        · exact hann (by rw [he]; rfl)
      · rcases hh with he | ⟨p, he, -⟩
        · rw [he] at hnew
          simp at hnew
        · rw [he] at hnew
          simp [State.emit] at hnew
  · rw [State.receive, readFrame_of_ne hch]
    simp only [hch, false_and, not_false_eq_true, iff_true]
    exact .inr ⟨_, rfl, rfl, rfl⟩

/-- A datagram never reaches the control plane. -/
theorem harmless_datagram (r : State) (peer : Int32) (last : Last) (channel : Int32) (sequence : UInt32)
    (data : Bytes) :
    Harmless r (r.receive peer last (.datagram (frameDatagram channel sequence data))) channel data := by
  rw [State.receive]
  cases hp : (readDatagram peer last (frameDatagram channel sequence data)).2 with
  | none => exact .inl rfl
  | some p =>
    obtain ⟨-, hch, hdata, -⟩ := readDatagram_packet hp
    exact .inr ⟨p, rfl, hch, hdata⟩

/-! ## What `put_packet` puts on the wire -/

theorem drop_length_append {α : Type} {xs ys zs : List α} (h : zs = xs ++ ys) : zs.drop xs.length = ys := by
  simp [h]

/-- A frame of a send: its own payload on its own channel, when it goes out
reliably and to this connection. -/
theorem puts_frame_iff {s : State} (h : s.Wired) (limits : Limits) (keys : List Int32) (target channel : Int32)
    (mode : Mode) (data : Bytes) (c : Connection) {ch : Int32} {f : Bytes} :
    Puts s (s.send limits keys target channel mode data) c (.frame ch f) ↔
      f = data ∧ ch = channel ∧ State.CarriedReliably limits c mode data ∧
        ∃ p ∈ s.picked keys target, s.connOf p = some c := by
  have hnew := drop_length_append (State.send_handed h limits keys target channel mode data c ch)
  constructor
  · intro hp
    cases hp with
    | frame hm =>
      rw [hnew] at hm
      split at hm
      · next hk =>
        obtain ⟨p, hp, rfl⟩ := List.mem_map.1 hm
        rw [List.mem_filter] at hp
        exact ⟨rfl, hk.1, hk.2, p, hp.1, by simpa using hp.2⟩
      · simp at hm
  · intro hp
    obtain ⟨rfl, rfl, hr, p, hp, hc⟩ := hp
    refine .frame ?_
    rw [hnew, if_pos ⟨rfl, hr⟩, List.mem_map]
    exact ⟨p, List.mem_filter.2 ⟨hp, by simpa using hc⟩, rfl⟩

theorem puts_datagram {s : State} (h : s.Wired) {limits : Limits} {keys : List Int32} {target channel : Int32}
    {mode : Mode} {data : Bytes} {c : Connection} {bytes : Bytes}
    (hp : Puts s (s.send limits keys target channel mode data) c (.datagram bytes)) :
    ∃ sequence, bytes = frameDatagram channel sequence data := by
  cases hp with
  | datagram hm =>
    obtain ⟨new, he, hn⟩ := (State.send_sends h limits keys target channel mode data).2.datagrams
    rw [drop_length_append he] at hm
    exact (hn _ hm).2

/-- **Exactly when application data stays off the control plane.** Take any
session of any reachable cluster, a connected `IrohPeer` on it, any channel,
mode and payload, and any connection and state of the session that receives:
everything `put_packet` puts on the wire to the connection is taken as a
packet with that channel and payload or not at all, unless the channel is
`i32::MIN`, the payload goes out reliably to that connection, and it decodes
to a control message with an effect there. -/
theorem harmless_iff {as : List Cluster.Action} {k : Cluster}
    (hrun : Machine.run Cluster.step Cluster.init as = some k) (n : Node) (peer : IrohPeer)
    {commands : List Command} (hstatus : peer.status = .connected) (hsession : peer.session = some commands)
    (channel : Int32) (mode : TransferMode) (data : Bytes) (limits : Limits) (keys : List Int32) (c : Connection)
    (id : Int32) (last : Last) (r : State) :
    ∃ command, ((peer.setTransferChannel channel).setTransferMode mode).send data =
        ({ (peer.setTransferChannel channel).setTransferMode mode with session := some (commands ++ [command]) }, .ok) ∧
      ((∀ w, Puts (k.members n).state ((k.members n).state.take limits keys command) c w →
          Harmless r (r.receive id last w) channel data) ↔
        ¬ (channel = controlChannel ∧
          (toSessionMode mode = .reliable ∨ (limits c).getD 0 < datagramHeader + data.length) ∧
          (∃ p ∈ (k.members n).state.picked keys peer.targetPeer, (k.members n).state.connOf p = some c) ∧
          ∃ control, Control.decode64 data = some control ∧ ¬ control.Inert r.announced)) := by
  have hw := (Cluster.sane_run hrun).wired n
  refine ⟨.send peer.targetPeer channel (toSessionMode mode) data, ?_, ?_⟩
  · simp [IrohPeer.send, IrohPeer.setTransferChannel, IrohPeer.setTransferMode, hstatus, hsession]
  refine ⟨fun hall hbad => ?_, fun hgood w hp => ?_⟩
  · obtain ⟨hch, hrel, hlink, hcontrol⟩ := hbad
    have hframe := hall _ ((puts_frame_iff hw ..).2 ⟨rfl, rfl, hrel, hlink⟩)
    exact (harmless_frame_iff r id last channel data).1 hframe ⟨hch, hcontrol⟩
  · cases w with
    | frame ch f =>
      obtain ⟨rfl, rfl, hrel, hlink⟩ := (puts_frame_iff hw ..).1 hp
      exact (harmless_frame_iff r id last ch f).2 fun ⟨hch, hcontrol⟩ => hgood ⟨hch, hrel, hlink, hcontrol⟩
    | datagram bytes =>
      obtain ⟨sequence, rfl⟩ := puts_datagram hw hp
      exact harmless_datagram ..

/-- A connected peer of a client. -/
def clientPeer : IrohPeer := { session := some [], targetPeer := 1, status := .connected }

/-- A host that has accepted one client, and the client. -/
theorem oneClient : ∃ k, Machine.run Cluster.step Cluster.init [.accept 0 []] = some k ∧
    (k.members (.client 0)).state.picked [1] 1 = [1] ∧ (k.members (.client 0)).state.connOf 1 = some 0 ∧
    (k.members .host).state.announced = {2} := by
  have hrun : ((Machine.run Cluster.step Cluster.init [.accept 0 []]).map fun k =>
      ((k.members (.client 0)).state.picked [1] 1, (k.members (.client 0)).state.connOf 1,
        (k.members .host).state.announced)) = some ([1], some 0, {2}) := by
    decide +kernel
  obtain ⟨k, hk, he⟩ := Option.map_eq_some_iff.1 hrun
  simp only [Prod.mk.injEq] at he
  exact ⟨k, hk, he⟩

theorem harmless_iff_oneClient : ∃ k, Machine.run Cluster.step Cluster.init [.accept 0 []] = some k ∧
    ∃ command, ((clientPeer.setTransferChannel 0).setTransferMode .reliable).send (Control.peerJoined 9).encode =
        ({ clientPeer with session := some [command] }, .ok) ∧
      ∀ w, Puts (k.members (.client 0)).state ((k.members (.client 0)).state.take (fun _ => none) [1] command) 0 w →
        Harmless (k.members .host).state ((k.members .host).state.receive 2 ∅ w) 0 (Control.peerJoined 9).encode := by
  obtain ⟨k, hk, -⟩ := oneClient
  obtain ⟨command, hsend, hiff⟩ := harmless_iff hk (.client 0) clientPeer rfl rfl 0 .reliable
    (Control.peerJoined 9).encode (fun _ => none) [1] 0 2 ∅ (k.members .host).state
  exact ⟨k, hk, command, hsend, hiff.2 fun hbad => absurd hbad.1 (by decide)⟩

/-- **A payload is obeyed.** A client's reliable packet on channel `i32::MIN`
makes its host tell of a peer that is not there. -/
theorem payload_is_obeyed : ¬ ∀ as k, Machine.run Cluster.step Cluster.init as = some k →
    ∀ (n m : Node) (c : Connection), Cluster.other n c = some m →
    ∀ (peer : IrohPeer) (channel : Int32) (mode : TransferMode) (data : Bytes) (command : Command),
      ((peer.setTransferChannel channel).setTransferMode mode).send data =
        ({ (peer.setTransferChannel channel).setTransferMode mode with session := some [command] }, .ok) →
    ∀ (limits : Limits) (keys : List Int32) (id : Int32) (last : Last) (w : Wire),
      Puts (k.members n).state ((k.members n).state.take limits keys command) c w →
        Harmless (k.members m).state ((k.members m).state.receive id last w) channel data := by
  intro hall
  obtain ⟨k, hk, hpicked, hconn, hann⟩ := oneClient
  have hw := (Cluster.sane_run hk).wired (.client 0)
  have hputs : Puts (k.members (.client 0)).state ((k.members (.client 0)).state.take (fun _ => none) [1]
      (.send 1 controlChannel .reliable (Control.peerJoined 9).encode)) 0
      (.frame controlChannel (Control.peerJoined 9).encode) :=
    (puts_frame_iff hw ..).2 ⟨rfl, rfl, .inl rfl, 1, by rw [hpicked]; simp, hconn⟩
  have hh := hall _ k hk (.client 0) .host 0 rfl clientPeer controlChannel .reliable (Control.peerJoined 9).encode _ rfl
    (fun _ => none) [1] 2 ∅ _ hputs
  refine (harmless_frame_iff (k.members .host).state 2 ∅ controlChannel _).1 hh ⟨rfl, .peerJoined 9, ?_, ?_⟩
  · exact Control.decode64_encode (by decide)
  · change ¬ (9 : Int32) ∈ (k.members .host).state.announced
    rw [hann]
    decide

end Gdiroh.Session
