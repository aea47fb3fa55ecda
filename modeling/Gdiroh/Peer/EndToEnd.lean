/-
From one script to another: `put_packet` at one peer, its session's queue of
commands and its writers, the streams, the other end's readers and events, and
`get_packet` there (`peer.rs` over `session.rs`).

`delivered_in_order`: in every run, the reliable packets that a script takes
off one connection and channel are those handed to that stream, from the first
on and without a gap; and these are among the packets put at the other end, in
the order they were put and each at most once.

Every peer starts with its session and holds it: what comes after a `close` is
another session's. A session's command and accept arms, its readers, the
network and the scripts of both ends take their steps in any order; a signal
handler can run any call while `poll` is at its events.
-/
import Gdiroh.Peer.Sizes
import Gdiroh.Session.Fabric
import Gdiroh.Session.HostSends
import Gdiroh.Session.Addressing

namespace Gdiroh
open Session

namespace IrohPeer

/-- Disconnects a peer, by way of the session. -/
def disconnectPeer (p : IrohPeer) (peer : Int32) : IrohPeer :=
  { p with session := p.session.map (· ++ [.disconnect peer]) }

/-- The commands that wait for the session's task. -/
def queue (p : IrohPeer) : List Command := p.session.getD []

end IrohPeer

/-- One peer: its sending half and its receiving half. -/
structure Player where
  peer : IrohPeer := { session := some [], status := .connecting }
  front : Front := { status := .connecting }
  /-- How many of the session's events were received. -/
  received : Nat := 0
  /-- Taken out by `poll` and not handled yet. -/
  batch : List Event := []
  /-- Every command that was queued. -/
  accepted : List Command := []
  /-- Every packet that script took. -/
  taken : List PeerPacket := []

namespace Player

/-- A call that may queue a command. -/
def calling (p : Player) (peer : IrohPeer) : Player :=
  { p with peer, accepted := p.accepted ++ peer.queue.drop p.peer.queue.length }

/-- `poll` takes the session's events out. -/
def poll (p : Player) (events : List Event) : Player :=
  if p.peer.session.isSome then { p with batch := events.drop p.received, received := events.length } else p

/-- `poll` handles the next one. -/
def handle (p : Player) (e : Event) (rest : List Event) : Player :=
  let front := p.front.handle e
  { p with
    front
    peer := { p.peer with status := front.status, session := if e.isClosed then none else p.peer.session }
    batch := rest }

def getPacket (p : Player) : Player :=
  { p with front := p.front.popPacket.1, taken := p.taken ++ p.front.popPacket.2.toList }

end Player

structure Network where
  fabric : Fabric := .init
  players : Node → Player := fun n => match n with
    | .host => { front := { status := .connecting, uniqueId := hostId } }
    | .client _ => {}

namespace Network

inductive Act where
  | setTargetPeer (n : Node) (peer : Int32)
  | setTransferChannel (n : Node) (channel : Int32)
  | setTransferMode (n : Node) (mode : TransferMode)
  | putRawptr (n : Node) (buffer : Bytes) (size : Int32)
  | putScript (n : Node) (buffer : Bytes)
  | disconnectPeer (n : Node) (peer : Int32)
  | poll (n : Node)
  | handle (n : Node)
  | getPacket (n : Node)
  /-- The command arm of a session takes the next command. -/
  | command (n : Node) (limits : Limits) (keys : List Int32)
  /-- Everything else that sessions and the network do. -/
  | net (a : Fabric.Action)

/-- Only commands make a session send or disconnect. -/
def commanded : Fabric.Action → Bool
  | .cluster (.send ..) | .cluster (.disconnect ..) => true
  | _ => false

def set (w : Network) (n : Node) (p : Player) : Network := { w with players := Function.update w.players n p }

/-- A session's state. -/
def state (w : Network) (n : Node) : State := (w.fabric.cluster.members n).state

def step (w : Network) : Act → Option Network
  | .setTargetPeer n peer => some (w.set n ((w.players n).calling ((w.players n).peer.setTargetPeer peer)))
  | .setTransferChannel n channel =>
    some (w.set n ((w.players n).calling ((w.players n).peer.setTransferChannel channel)))
  | .setTransferMode n mode => some (w.set n ((w.players n).calling ((w.players n).peer.setTransferMode mode)))
  | .putRawptr n buffer size =>
    some (w.set n ((w.players n).calling ((w.players n).peer.putPacketRawptr buffer size).1))
  | .putScript n buffer => some (w.set n ((w.players n).calling ((w.players n).peer.putPacketScript buffer).1))
  | .disconnectPeer n peer => some (w.set n ((w.players n).calling ((w.players n).peer.disconnectPeer peer)))
  | .poll n => if (w.players n).batch = [] then some (w.set n ((w.players n).poll (w.state n).events)) else none
  | .handle n =>
    match (w.players n).batch with
    | [] => none
    | e :: rest => some (w.set n ((w.players n).handle e rest))
  | .getPacket n => some (w.set n (w.players n).getPacket)
  | .command n limits keys =>
    match (w.players n).peer.session with
    | some (command :: rest) =>
      let taken := w.set n { w.players n with peer := { (w.players n).peer with session := some rest } }
      match command with
      | .send target channel mode data =>
        (w.fabric.step (.cluster (.send n limits keys target channel mode data))).map fun f => { taken with fabric := f }
      | .disconnect peer => (w.fabric.step (.cluster (.disconnect n peer))).map fun f => { taken with fabric := f }
      | .close => none
    | _ => none
  | .net a => if commanded a then none else (w.fabric.step a).map fun f => { w with fabric := f }

/-! ## The calls -/

/-- What a command puts on a channel. -/
def putOn (channel : Int32) : Command → Option Bytes
  | .send _ ch _ data => if ch = channel then some data else none
  | .disconnect _ | .close => none

/-- The reliable packets that script at `m` took, which came over a connection
on a channel. Those it took are the first of those its session reported. -/
def heard (w : Network) (m : Node) (c : Connection) (channel : Int32) : List Bytes :=
  ((w.fabric.cluster.log m).take (w.players m).taken.length).filterMap fun e =>
    if e.1 = c ∧ e.2.channel = channel ∧ e.2.mode = .reliable then some e.2.data else none

end Network

namespace IrohPeer

/-- A call queues a command at the end, or does nothing to the queue. -/
def Queues (p q : IrohPeer) : Prop :=
  q.session = p.session ∨ ∃ commands command, p.session = some commands ∧ q.session = some (commands ++ [command])

theorem send_queues (p : IrohPeer) (data : Bytes) : p.Queues (p.send data).1 := by
  unfold send
  split
  · exact .inl rfl
  split
  · exact .inl rfl
  next commands hcommands => exact .inr ⟨commands, _, hcommands, rfl⟩

theorem putPacketRawptr_queues (p : IrohPeer) (buffer : Bytes) (size : Int32) :
    p.Queues (p.putPacketRawptr buffer size).1 := by
  unfold putPacketRawptr
  split
  · exact .inl rfl
  · exact send_queues ..

theorem disconnectPeer_queues (p : IrohPeer) (peer : Int32) : p.Queues (p.disconnectPeer peer) := by
  cases hsession : p.session with
  | none => exact .inl (by simp [disconnectPeer, hsession])
  | some commands => exact .inr ⟨commands, .disconnect peer, hsession, by simp [disconnectPeer, hsession]⟩

end IrohPeer

namespace Network

/-! ## What a session hands over -/

/-- A send hands a stream at most one copy of the payload. -/
theorem send_once {s : State} (h : s.Wired) {keys : List Int32} (hkeys : keys.Perm s.links.keys) (limits : Limits)
    (target channel : Int32) (mode : Mode) (data : Bytes) (c : Connection) (ch : Int32) :
    (s.send limits keys target channel mode data).handed c ch = s.handed c ch ∨
      ch = channel ∧ (s.send limits keys target channel mode data).handed c ch = s.handed c ch ++ [data] := by
  rw [State.send_handed h]
  split
  next hcarried =>
    by_cases hlinked : ∃ p, s.connOf p = some c
    · obtain ⟨p, hp⟩ := hlinked
      have hnodup : (s.picked keys target).Nodup :=
        State.picked_nodup target (hkeys.nodup_iff.2 s.links.keys_nodup)
      rw [h.filter_connOf hnodup hp]
      split
      · exact .inr ⟨hcarried.1, rfl⟩
      · exact .inl (List.append_nil _)
    · have hnone : (s.picked keys target).filter (s.connOf · = some c) = [] :=
        List.filter_eq_nil_iff.2 fun p _ => by simpa using fun hp => hlinked ⟨p, hp⟩
      exact .inl (by rw [hnone]; simp)
  · exact .inl (List.append_nil _)

/-- What is not a command hands no payload over, and only adds events. -/
theorem net_quiet {f f' : Fabric} {a : Fabric.Action} (h : f.Carried) (hs : f.step a = some f')
    (ha : ∀ n limits keys target channel mode data, a ≠ .cluster (.send n limits keys target channel mode data))
    (n : Node) :
    (∀ c channel, channel ≠ controlChannel →
      (f'.cluster.members n).state.handed c channel = (f.cluster.members n).state.handed c channel) ∧
      (f.cluster.members n).state.events <+: (f'.cluster.members n).state.events := by
  cases Fabric.step_cases hs with
  | cluster hr hk =>
    have hstep := Cluster.step_cases hk
    refine ⟨fun c channel hch => ?_, (Cluster.step_moves hstep n).events_grow⟩
    rcases Cluster.step_handed h.sane hstep n with ⟨limits, keys, target, ch, mode, data, rfl, -⟩ | ⟨hsame, -⟩
    · exact absurd rfl (ha n limits keys target ch mode data)
    · exact hsame c channel hch
  | turn => exact ⟨fun _ _ _ => rfl, List.prefix_refl _⟩
  | @frame _ w c channel tag frame p k hw hp he ht hk =>
    obtain ⟨r, peer, -, rfl⟩ := Cluster.receive_eq_some.1 hk
    have hmoves : Cluster.Moves f.cluster (.lose c) f.cluster n (f.cluster.members n).state
        ((f.cluster.report r c (readFrame peer tag frame)).members n).state := Cluster.report_moves ..
    exact ⟨fun c' ch _ => (Cluster.report_wire f.cluster r c _ n).handed c' ch, hmoves.events_grow⟩

/-- What a session was given on a channel comes first among what was handed
over for it. -/
theorem received_isPre {f : Fabric} (h : f.Carried) {n m : Node} {c : Connection} {channel : Int32}
    (ho : Cluster.other n c = some m) (hch : channel ≠ controlChannel)
    (hlen : ∀ data ∈ (f.cluster.members n).state.handed c channel, data.length < 2 ^ 32) :
    f.received m c channel <+: (f.cluster.members n).state.handed c channel := by
  by_cases hw : (c, channel) ∈ (f.cluster.members n).state.writers
  · obtain ⟨w, hw⟩ := List.getElem?_of_mem hw
    rw [h.received n m c channel ho hch w hw]
    exact (h.sound n w c channel hw).emitted_isPre hlen
  · rw [h.silent n m c channel ho hch hw]
    exact List.nil_prefix

/-! ## The invariant -/

/-- What came of a peer's commands: those served so far put what the session
has handed over. A peer that lost its session has lost what was queued. -/
def Served (s : State) (p : Player) : Prop :=
  ∃ served, served ++ p.peer.queue <+: p.accepted ∧ (p.peer.session.isSome = true → served ++ p.peer.queue = p.accepted) ∧
    ∀ c channel, channel ≠ controlChannel → (s.handed c channel).Sublist (served.filterMap (putOn channel))

/-- What came of a session's events: those handled so far brought the packets
that wait and those that were taken. -/
def Shown (events : List Event) (p : Player) : Prop :=
  p.received ≤ events.length ∧ ∃ handled, events.take p.received = handled ++ p.batch ∧
    p.taken ++ p.front.incoming = (packets handled).map Packet.toPeer

structure Flows (w : Network) : Prop where
  carried : w.fabric.Carried
  logged : w.fabric.cluster.Logged
  served : ∀ n, Served (w.state n) (w.players n)
  shown : ∀ n, Shown (w.state n).events (w.players n)

theorem Served.call {s : State} {p : Player} (h : Served s p) {peer : IrohPeer} (hq : p.peer.Queues peer) :
    Served s (p.calling peer) := by
  obtain ⟨served, hpre, hall, hhanded⟩ := h
  rcases hq with hsame | ⟨commands, command, hold, hnew⟩
  · have hqueue : peer.queue = p.peer.queue := by rw [IrohPeer.queue, hsame, IrohPeer.queue]
    refine ⟨served, ?_, fun hsome => ?_, hhanded⟩
    · simpa [Player.calling, hqueue] using hpre
    · simpa [Player.calling, hqueue] using hall (hsame ▸ hsome)
  · have hqueue : peer.queue = p.peer.queue ++ [command] := by simp [IrohPeer.queue, hold, hnew]
    have haccepted : served ++ peer.queue = (p.calling peer).accepted := by
      simp [Player.calling, hqueue, ← hall (by simp [hold])]
    exact ⟨served, haccepted ▸ List.prefix_refl _, fun _ => haccepted, hhanded⟩

/-- The session takes the first command. -/
theorem Served.take {s s' : State} {p : Player} (h : Served s p) {command : Command} {rest : List Command}
    (hsession : p.peer.session = some (command :: rest))
    (hhands : ∀ c channel, channel ≠ controlChannel → s'.handed c channel = s.handed c channel ∨
      ∃ data, putOn channel command = some data ∧ s'.handed c channel = s.handed c channel ++ [data]) :
    Served s' { p with peer := { p.peer with session := some rest } } := by
  obtain ⟨served, -, hall, hhanded⟩ := h
  have haccepted : served ++ [command] ++ rest = p.accepted := by
    rw [← hall (by simp [hsession])]
    simp [IrohPeer.queue, hsession]
  refine ⟨served ++ [command], haccepted ▸ List.prefix_refl _, fun _ => haccepted, fun c channel hch => ?_⟩
  rw [List.filterMap_append]
  rcases hhands c channel hch with hsame | ⟨data, hput, hmore⟩
  · rw [hsame]
    exact (hhanded c channel hch).trans (List.sublist_append_left ..)
  · rw [hmore]
    refine (hhanded c channel hch).append ?_
    simp [hput]

theorem Served.same {s s' : State} {p : Player} (h : Served s p)
    (hhanded : ∀ c channel, channel ≠ controlChannel → s'.handed c channel = s.handed c channel) : Served s' p := by
  obtain ⟨served, hpre, hall, hold⟩ := h
  exact ⟨served, hpre, hall, fun c channel hch => hhanded c channel hch ▸ hold c channel hch⟩

theorem Served.handle {s : State} {p : Player} (h : Served s p) (e : Event) (rest : List Event) :
    Served s (p.handle e rest) := by
  obtain ⟨served, hpre, hall, hhanded⟩ := h
  cases hclosed : e.isClosed with
  | false =>
    refine ⟨served, ?_, ?_, hhanded⟩
    · simpa [Player.handle, IrohPeer.queue, hclosed] using hpre
    · simpa [Player.handle, IrohPeer.queue, hclosed] using hall
  | true =>
    refine ⟨served, ?_, by simp [Player.handle, hclosed], hhanded⟩
    simpa [Player.handle, IrohPeer.queue, hclosed] using (List.prefix_append served p.peer.queue).trans hpre

theorem Shown.grow {events events' : List Event} {p : Player} (h : Shown events p) (hgrow : events <+: events') :
    Shown events' p := by
  obtain ⟨hle, handled, hbatch, hpackets⟩ := h
  obtain ⟨new, rfl⟩ := hgrow
  refine ⟨by simp; omega, handled, ?_, hpackets⟩
  rw [List.take_append_of_le_length hle, hbatch]

theorem Shown.poll {events : List Event} {p : Player} (h : Shown events p) (hempty : p.batch = []) :
    Shown events (p.poll events) := by
  unfold Player.poll
  split
  · obtain ⟨hle, handled, hbatch, hpackets⟩ := h
    rw [hempty, List.append_nil] at hbatch
    exact ⟨Nat.le_refl _, handled, by rw [← hbatch, List.take_append_drop, List.take_length], hpackets⟩
  · exact h

theorem Shown.handle {events : List Event} {p : Player} (h : Shown events p) {e : Event} {rest : List Event}
    (hbatch : p.batch = e :: rest) : Shown events (p.handle e rest) := by
  obtain ⟨hle, handled, htake, hpackets⟩ := h
  refine ⟨hle, handled ++ [e], by simp [Player.handle, htake, hbatch], ?_⟩
  have hincoming : (p.front.handle e).incoming = p.front.incoming ++ (packets [e]).map Packet.toPeer := by
    cases e <;> simp [Front.handle, packets, Event.packet?, Front.emit, Packet.toPeer]
  change p.taken ++ (p.front.handle e).incoming = _
  rw [hincoming, ← List.append_assoc, hpackets, packets, packets, packets, List.filterMap_append, List.map_append]

theorem Shown.getPacket {events : List Event} {p : Player} (h : Shown events p) : Shown events p.getPacket := by
  obtain ⟨hle, handled, hbatch, hpackets⟩ := h
  refine ⟨hle, handled, hbatch, ?_⟩
  rw [← hpackets]
  unfold Player.getPacket Front.popPacket
  cases hin : p.front.incoming with
  | nil => simp [hin]
  | cons packet rest => simp

theorem set_players (w : Network) (n : Node) (p : Player) (m : Node) :
    (w.set n p).players m = if m = n then p else w.players m := by
  simp [set, Function.update_apply]

/-- One player changes. -/
theorem Flows.player {w : Network} (h : Flows w) {n : Node} {p : Player} (hserved : Served (w.state n) p)
    (hshown : Shown (w.state n).events p) : Flows (w.set n p) where
  carried := h.carried
  logged := h.logged
  served m := by
    rw [set_players]
    split
    · next hm => exact hm ▸ hserved
    · exact h.served m
  shown m := by
    rw [set_players]
    split
    · next hm => exact hm ▸ hshown
    · exact h.shown m

theorem Flows.call {w : Network} (h : Flows w) {n : Node} {peer : IrohPeer} (hq : (w.players n).peer.Queues peer) :
    Flows (w.set n ((w.players n).calling peer)) :=
  h.player ((h.served n).call hq) (h.shown n)

/-- The command arm of a session. -/
theorem Flows.command {w : Network} (h : Flows w) {n : Node} {command : Command} {rest : List Command}
    (hsession : (w.players n).peer.session = some (command :: rest)) {a : Fabric.Action} {f : Fabric}
    (hs : w.fabric.step a = some f)
    (hhands : ∀ m c channel, channel ≠ controlChannel →
      (f.cluster.members m).state.handed c channel = (w.state m).handed c channel ∨
        m = n ∧ ∃ data, putOn channel command = some data ∧
          (f.cluster.members m).state.handed c channel = (w.state m).handed c channel ++ [data])
    (hgrow : ∀ m, (w.state m).events <+: (f.cluster.members m).state.events) :
    Flows { w.set n { w.players n with peer := { (w.players n).peer with session := some rest } } with fabric := f } where
  carried := Fabric.carried_step h.carried hs
  logged := Fabric.logged_step h.logged hs
  served m := by
    change Served (f.cluster.members m).state ((w.set n _).players m)
    rw [set_players]
    split
    · next hm =>
      subst hm
      refine (h.served m).take hsession fun c channel hch => ?_
      rcases hhands m c channel hch with hsame | ⟨-, data, hdata⟩
      · exact .inl hsame
      · exact .inr ⟨data, hdata⟩
    · next hm =>
      refine (h.served m).same fun c channel hch => ?_
      rcases hhands m c channel hch with hsame | ⟨rfl, -⟩
      · exact hsame
      · exact absurd rfl hm
  shown m := by
    change Shown (f.cluster.members m).state.events ((w.set n _).players m)
    rw [set_players]
    split
    · next hm => exact hm ▸ (h.shown m).grow (hgrow m)
    · exact (h.shown m).grow (hgrow m)

theorem flows_step {w w' : Network} {a : Act} (h : Flows w) (hs : step w a = some w') : Flows w' := by
  cases a with
  | setTargetPeer n peer | setTransferChannel n channel | setTransferMode n mode =>
    obtain rfl := Option.some.inj hs
    exact h.call (.inl rfl)
  | putRawptr n buffer size =>
    obtain rfl := Option.some.inj hs
    exact h.call (IrohPeer.putPacketRawptr_queues ..)
  | putScript n buffer =>
    obtain rfl := Option.some.inj hs
    exact h.call (IrohPeer.send_queues ..)
  | disconnectPeer n peer =>
    obtain rfl := Option.some.inj hs
    exact h.call (IrohPeer.disconnectPeer_queues ..)
  | poll n =>
    simp only [step] at hs
    split at hs
    next hempty =>
      obtain rfl := Option.some.inj hs
      refine h.player ?_ ((h.shown n).poll hempty)
      unfold Player.poll
      split
      · exact h.served n
      · exact h.served n
    · simp at hs
  | handle n =>
    simp only [step] at hs
    split at hs
    · simp at hs
    next e rest hbatch =>
      obtain rfl := Option.some.inj hs
      exact h.player ((h.served n).handle e rest) ((h.shown n).handle hbatch)
  | getPacket n =>
    obtain rfl := Option.some.inj hs
    exact h.player (h.served n) (h.shown n).getPacket
  | command n limits keys =>
    simp only [step] at hs
    split at hs
    next command rest hsession =>
      split at hs
      next target channel mode data =>
        obtain ⟨f, hf, rfl⟩ := Option.map_eq_some_iff.1 hs
        obtain ⟨k, hk, rfl⟩ := Option.map_eq_some_iff.1 hf
        refine h.command hsession hf (fun m c ch hch => ?_) fun m =>
          (Cluster.step_moves (Cluster.step_cases hk) m).events_grow
        cases Cluster.step_cases hk with
        | send hkeys =>
          simp only [Cluster.setState_members]
          split
          next hm =>
            subst hm
            rcases send_once (h.carried.sane.wired m) hkeys limits target channel mode data c ch with hsame | ⟨rfl, hmore⟩
            · exact .inl hsame
            · exact .inr ⟨rfl, data, if_pos rfl, hmore⟩
          · exact .inl rfl
      next peer =>
        obtain ⟨f, hf, rfl⟩ := Option.map_eq_some_iff.1 hs
        have hquiet := fun m => net_quiet h.carried hf (by simp) m
        exact h.command hsession hf (fun m c ch hch => .inl ((hquiet m).1 c ch hch)) fun m => (hquiet m).2
      · simp at hs
    · simp at hs
  | net a =>
    simp only [step] at hs
    split at hs
    · simp at hs
    next hcommanded =>
      obtain ⟨f, hf, rfl⟩ := Option.map_eq_some_iff.1 hs
      have hquiet := net_quiet h.carried hf fun n limits keys target channel mode data ha => by
        simp [ha, commanded] at hcommanded
      exact {
        carried := Fabric.carried_step h.carried hf
        logged := Fabric.logged_step h.logged hf
        served := fun n => (h.served n).same (hquiet n).1
        shown := fun n => (h.shown n).grow (hquiet n).2 }

theorem flows_init : Flows {} where
  carried := Fabric.carried_init
  logged := Cluster.logged_init
  served n := by
    have hhanded : ∀ c channel, (Cluster.init.members n).state.handed c channel = [] := by
      intro c channel
      refine State.handed_eq_nil ?_
      cases n with
      | host => simp [Cluster.init, State.hosting]
      | client d => simp [Cluster.init, State.joined, State.addLink]
    refine ⟨[], ?_, ?_, fun c channel _ => by simp [state, Fabric.init, hhanded]⟩
    · cases n <;> simp [IrohPeer.queue]
    · cases n <;> simp [IrohPeer.queue]
  shown n := by
    refine ⟨by cases n <;> simp, [], ?_, ?_⟩
    · cases n <;> simp
    · cases n <;> simp [packets]

/-- **From script to script.** In every run, let `n` and `m` be the two ends of
a connection, and every payload that `n` put on a channel be shorter than
`2 ^ 32` bytes. Then the packets that script took at `m` are the first that its
session was given; the reliable ones among them that came over the connection
on the channel are the first of the payloads handed to that stream; and these
are a subsequence of the payloads that script put on the channel at `n`. So
none comes twice, none is made up and none overtakes another. -/
theorem delivered_in_order {as : List Act} {w : Network} (hrun : Machine.run step {} as = some w) {n m : Node}
    {c : Connection} {channel : Int32} (ho : Cluster.other n c = some m) (hch : channel ≠ controlChannel)
    (hlen : ∀ data ∈ (w.players n).accepted.filterMap (putOn channel), data.length < 2 ^ 32) :
    (w.players m).taken = ((w.fabric.cluster.log m).take (w.players m).taken.length).map (fun e => e.2.toPeer) ∧
      w.heard m c channel <+: (w.state n).handed c channel ∧
      ((w.state n).handed c channel).Sublist ((w.players n).accepted.filterMap (putOn channel)) := by
  have h : Flows w := Machine.run_invariant (fun _ _ _ => flows_step) hrun flows_init
  obtain ⟨served, hpre, -, hhanded⟩ := h.served n
  obtain ⟨-, handled, htake, hpackets⟩ := h.shown m
  have hput : ((w.state n).handed c channel).Sublist ((w.players n).accepted.filterMap (putOn channel)) := by
    obtain ⟨more, hmore⟩ := (List.prefix_append served (w.players n).peer.queue).trans hpre
    rw [← hmore, List.filterMap_append]
    exact (hhanded c channel hch).trans (List.sublist_append_left ..)
  refine ⟨?_, ?_, hput⟩
  · have hlog : packets (w.state m).events = (w.fabric.cluster.log m).map Prod.snd := h.logged m
    have hevents : handled <+: (w.state m).events :=
      (htake ▸ List.prefix_append ..).trans (List.take_prefix ..)
    have htaken : (w.players m).taken <+: (w.fabric.cluster.log m).map fun e => e.2.toPeer := by
      calc (w.players m).taken <+: (packets handled).map Packet.toPeer := hpackets ▸ List.prefix_append ..
        _ <+: (packets (w.state m).events).map Packet.toPeer := (hevents.filterMap _).map _
        _ = (w.fabric.cluster.log m).map fun e => e.2.toPeer := by rw [hlog, List.map_map]; rfl
    rw [List.map_take]
    exact List.prefix_iff_eq_take.1 htaken
  · exact ((List.take_prefix ..).filterMap _).trans
      (received_isPre h.carried ho hch fun data hdata => hlen data (hput.subset hdata))

/-- The host's script puts a payload to its client, whose script takes it. -/
def putAndTaken : List Act :=
  [.net (.cluster (.accept 0 [])), .poll .host, .handle .host, .handle .host, .setTargetPeer .host 2,
    .setTransferChannel .host 5, .putScript .host [9, 8], .command .host (fun _ => none) [2],
    .net (.pipe .host 1 .open), .net (.pipe .host 1 (.write 4)), .net (.pipe .host 1 .take),
    .net (.pipe .host 1 (.write 6)), .net (.pipe .host 1 (.carry 10)), .net (.pipe .host 1 .readTag),
    .net (.pipe .host 1 .readFrame), .poll (.client 0), .handle (.client 0), .getPacket (.client 0)]

theorem delivered_in_order_putAndTaken : ∃ w, Machine.run step {} putAndTaken = some w ∧
    w.heard (.client 0) 0 5 = [[9, 8]] ∧
    (w.players (.client 0)).taken = ((w.fabric.cluster.log (.client 0)).take 1).map (fun e => e.2.toPeer) := by
  have hrun : ((Machine.run step {} putAndTaken).map fun w =>
      (w.heard (.client 0) 0 5, (w.players .host).accepted.filterMap (putOn 5), (w.players (.client 0)).taken.length)) =
      some ([[9, 8]], [[9, 8]], 1) := by
    decide +kernel
  obtain ⟨w, hw, he⟩ := Option.map_eq_some_iff.1 hrun
  simp only [Prod.mk.injEq] at he
  have hlen : ∀ data ∈ (w.players .host).accepted.filterMap (putOn 5), data.length < 2 ^ 32 := by
    rw [he.2.1]
    decide
  have htaken := (delivered_in_order hw (n := .host) (m := .client 0) (c := 0) rfl (by decide) hlen).1
  rw [he.2.2] at htaken
  exact ⟨w, hw, he.1, htaken⟩

end Network
end Gdiroh
