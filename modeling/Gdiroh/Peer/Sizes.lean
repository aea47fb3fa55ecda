/-
The sizes of packets on their way from a stream to Godot. A frame's length is
a `u32` that the other end chooses, becomes a `usize` in `read_stream`, and is
given to Godot as an `i32` by `get_packet_rawptr`. `MAX_PACKET_SIZE` is what
`get_max_packet_size` answers, and nothing on the way compares a length with
it.

So the packets that a peer has coming are within the bound, and reported at
their size, exactly as long as the other ends announce no frame beyond it
(`packet_sizes_iff`); from 2 ^ 31 on the size reported is negative
(`oversized_delivered`).

Frames of the control channel carry no packets, and datagrams are bounded by
the path.
-/
import Gdiroh.Peer.Sessions

namespace Gdiroh
open Session BigEndian Framing

/-- Largest packet the reliable path will carry. -/
def maxPacketSize : Int32 := 8 * 1024 * 1024

/-! ## What a packet is reported as -/

namespace PeerPacket

/-- `packet.data.len() as i32` -/
def bufferSize (p : PeerPacket) : Int32 := .ofNat p.data.length

/-- The size reported is that of the packet, and no more than is allowed. -/
structure Faithful (p : PeerPacket) : Prop where
  size : p.bufferSize.toInt = p.data.length
  nonneg : 0 ≤ p.bufferSize.toInt
  bounded : p.bufferSize.toInt ≤ maxPacketSize.toInt

theorem faithful_iff (p : PeerPacket) : p.Faithful ↔ p.data.length ≤ maxPacketSize.toNatClampNeg := by
  have hmax : maxPacketSize.toInt = maxPacketSize.toNatClampNeg := by decide
  have hlt : maxPacketSize.toNatClampNeg < 2 ^ 31 := by decide
  constructor
  · intro h
    have hsize := h.size
    have hbounded := h.bounded
    omega
  · intro h
    have hsize : p.bufferSize.toInt = p.data.length := Int32.toInt_ofNat_of_lt (by omega)
    exact ⟨hsize, by omega, by omega⟩

end PeerPacket

theorem fromSessionMode_eq_reliable {mode : Mode} : fromSessionMode mode = .reliable ↔ mode = .reliable := by
  cases mode <;> decide

namespace Front

/-- What `get_packet_rawptr` writes through its two pointers. -/
def packetOut (p : Front) : Option (Bytes × Int32) := p.popPacket.2.map fun q => (q.data, q.bufferSize)

theorem packetOut_data (p : Front) : p.packetOut.map (·.1) = p.getPacketRawptr.2 := by
  simp [packetOut, getPacketRawptr, Function.comp_def]

/-- `get_packet_mode`, of the packet that comes next. -/
def getPacketMode (p : Front) : TransferMode := (p.incoming.head?.map (·.mode)).getD .reliable

end Front

namespace Session

/-- A session's packet as `handle` queues it. -/
def Packet.toPeer (q : Packet) : PeerPacket := ⟨q.peer, q.channel, fromSessionMode q.mode, q.data⟩

/-! ## What a session's step hands over -/

/-- The length announced by the frame that a reader takes, if the frame is to
be a packet. -/
def Tasks.announces (t : Tasks) : Tasks.Action → Option UInt32
  | .arrive (.frame i) =>
    t.arrivals.streams[i]?.bind fun s => s.channel.bind fun channel =>
      if channel = controlChannel then none else (getU32 s.buffer).map (·.1)
  | _ => none

/-- The packet handed over by a step of the session or its readers. -/
def Tasks.gives (t : Tasks) : Tasks.Action → Option Packet
  | .arrive a => t.handsOver a
  | _ => none

theorem Tasks.step_gives {t t' : Tasks} {a : Tasks.Action} (h : Tasks.step t a = some t') :
    ∃ new, t'.state.events = t.state.events ++ new ∧ packets new = (t.gives a).toList := by
  cases a with
  | turn turn =>
    simp only [Tasks.step] at h
    split at h
    · exact ⟨[], by rw [(Tasks.start_state h).1, List.append_nil], rfl⟩
    · simp at h
  | tick =>
    simp only [Tasks.step] at h
    split at h
    · simp at h
    next op rest _ =>
      obtain rfl := Option.some.inj h
      obtain ⟨new, hnew, hno⟩ := op.exec_adds t.state
      exact ⟨new, hnew, List.filterMap_eq_nil_iff.2 hno⟩
  | watch c =>
    simp only [Tasks.step] at h
    split at h
    · simp at h
    · split at h
      · simp at h
      · obtain rfl := Option.some.inj h
        exact ⟨[], by simp, rfl⟩
  | arrive a =>
    obtain ⟨⟨arrivals, rep⟩, ha, rfl⟩ := Option.map_eq_some_iff.1 h
    simp only [Tasks.gives, Tasks.handsOver, ha, Option.bind_some]
    cases rep with
    | none => exact ⟨[], by simp, rfl⟩
    | some rep =>
      cases rep with
      | packet p => exact ⟨[.packet p], rfl, rfl⟩
      | control c => exact ⟨[], by simp [Tasks.report], rfl⟩

/-- A reliable packet is a frame off a stream, as long as it was announced. -/
theorem Tasks.gives_reliable {t t' : Tasks} {a : Tasks.Action} (h : Tasks.step t a = some t') (n : Nat) :
    (∀ p ∈ t.gives a, p.mode = .reliable → p.data.length ≤ n) ↔ ∀ length ∈ t.announces a, length.toNat ≤ n := by
  cases a with
  | turn | tick | watch => simp [Tasks.gives, Tasks.announces]
  | arrive a =>
    obtain ⟨⟨arrivals, rep⟩, ha, -⟩ := Option.map_eq_some_iff.1 h
    simp only [Tasks.gives, Tasks.handsOver, ha, Option.bind_some]
    cases a with
    | stream c =>
      obtain ⟨peer, -, he⟩ := Option.map_eq_some_iff.1 ha
      obtain ⟨-, rfl⟩ := Prod.mk.inj he
      simp [Tasks.announces]
    | bytes i bytes =>
      obtain ⟨s, -, he⟩ := Option.map_eq_some_iff.1 ha
      obtain ⟨-, rfl⟩ := Prod.mk.inj he
      simp [Tasks.announces]
    | header i =>
      obtain ⟨s, -, hs⟩ := Option.bind_eq_some_iff.1 ha
      split at hs
      · simp at hs
      · obtain ⟨_, -, he⟩ := Option.map_eq_some_iff.1 hs
        obtain ⟨-, rfl⟩ := Prod.mk.inj he
        simp [Tasks.announces]
    | datagram c datagram =>
      obtain ⟨peer, -, he⟩ := Option.map_eq_some_iff.1 ha
      have hrep : rep = (readDatagram peer (t.arrivals.last c) datagram).2.map .packet := (Prod.mk.inj he).2.symm
      refine iff_of_true (fun p hp hmode => ?_) (by simp [Tasks.announces])
      cases hread : (readDatagram peer (t.arrivals.last c) datagram).2 with
      | none => simp [hrep, hread] at hp
      | some q =>
        obtain rfl : q = p := by simpa [hrep, hread] using hp
        exact absurd hmode (readDatagram_some hread).2
    | frame i =>
      obtain ⟨s, hs, hframe⟩ := Option.bind_eq_some_iff.1 ha
      obtain ⟨channel, hchannel, hframe⟩ := Option.bind_eq_some_iff.1 hframe
      obtain ⟨⟨frame, rest⟩, hnext, he⟩ := Option.map_eq_some_iff.1 hframe
      obtain ⟨-, rfl⟩ := Prod.mk.inj he
      obtain ⟨hbuffer, hlength⟩ := nextFrame_eq_some.1 hnext
      simp only [Tasks.announces, hs, hchannel, Option.bind_some]
      by_cases hcontrol : channel = controlChannel
      · simp only [readFrame, if_pos hcontrol]
        cases Control.decode64 frame <;> simp
      · have hget : getU32 s.buffer = some (.ofNat frame.length, frame ++ rest) := by
          rw [hbuffer, Framing.frame, List.append_assoc, getU32_putU32]
        rw [readFrame_of_ne hcontrol, if_neg hcontrol, hget]
        simp [toNat_ofNat_length hlength]

namespace Life

def announces : Life → Act → Option UInt32
  | .running t, .act a => t.announces a
  | _, _ => none

def gives : Life → Act → Option Packet
  | .running t, .act a => t.gives a
  | _, _ => none

theorem step_gives {l l' : Life} {a : Act} (h : l.step a = some l') :
    ∃ new, l'.events = l.events ++ new ∧ packets new = (l.gives a).toList := by
  cases l with
  | dialling =>
    cases a with
    | connected c => exact ⟨[], by simpa using (Option.some.inj h).symm ▸ rfl, rfl⟩
    | failed text => exact ⟨[.closed text], by simpa using (Option.some.inj h).symm ▸ rfl, rfl⟩
    | act a => simp [step] at h
  | running t =>
    cases a with
    | act a =>
      obtain ⟨t', ht, rfl⟩ := Option.map_eq_some_iff.1 h
      exact Tasks.step_gives ht
    | connected | failed => simp [step] at h
  | settled events => cases a <;> simp [step] at h

theorem gives_reliable {l l' : Life} {a : Act} (h : l.step a = some l') (n : Nat) :
    (∀ p ∈ l.gives a, p.mode = .reliable → p.data.length ≤ n) ↔ ∀ length ∈ l.announces a, length.toNat ≤ n := by
  cases l with
  | running t =>
    cases a with
    | act a =>
      obtain ⟨t', ht, -⟩ := Option.map_eq_some_iff.1 h
      exact Tasks.gives_reliable ht n
    | connected | failed => simp [gives, announces]
  | dialling | settled => simp [gives, announces]

end Life
end Session

/-! ## What a peer has coming -/

namespace Play

/-- The packets on their way to Godot: those that wait there, those of the
batch, and those of the session. -/
def coming (s : Play) : List PeerPacket :=
  s.front.incoming ++ (packets (s.batch ++ s.front.waiting)).map Packet.toPeer

/-- No oversized packet is delivered, and `get_packet_rawptr` reports a
reliable one at its size. -/
structure Fits (s : Play) : Prop where
  coming : ∀ p ∈ s.coming, p.mode = .reliable → p.data.length ≤ maxPacketSize.toNatClampNeg
  handed : ∀ data size, s.front.packetOut = some (data, size) → s.front.getPacketMode = .reliable →
    size.toInt = data.length ∧ 0 ≤ size.toInt ∧ size.toInt ≤ maxPacketSize.toInt

/-- The length that the step's frame announces. -/
def announces (s : Play) : Action → Option UInt32
  | .session a => s.front.session.bind (·.life.announces a)
  | _ => none

/-- The frame is no larger than is allowed. -/
def Within (s : Play) (a : Action) : Prop := ∀ length ∈ s.announces a, length.toNat ≤ maxPacketSize.toNatClampNeg

instance (s : Play) (a : Action) : Decidable (s.Within a) := Option.decidableForallMem (s.announces a)

theorem fits_iff (s : Play) :
    s.Fits ↔ ∀ p ∈ s.coming, p.mode = .reliable → p.data.length ≤ maxPacketSize.toNatClampNeg := by
  refine ⟨Fits.coming, fun h => ⟨h, fun data size hout hmode => ?_⟩⟩
  cases hin : s.front.incoming with
  | nil => simp [Front.packetOut, Front.popPacket, hin] at hout
  | cons p rest =>
    have hmode : p.mode = .reliable := by simpa [Front.getPacketMode, hin] using hmode
    have hp : p ∈ s.coming := by simp [Play.coming, hin]
    obtain ⟨hsize, hnonneg, hbounded⟩ := p.faithful_iff.2 (h p hp hmode)
    obtain ⟨rfl, rfl⟩ : p.data = data ∧ p.bufferSize = size := by
      simpa [Front.packetOut, Front.popPacket, hin] using hout
    exact ⟨hsize, hnonneg, hbounded⟩

/-- A session has given no more events than it has. -/
def Given (s : Play) : Prop := ∀ held ∈ s.front.session, held.received ≤ held.life.events.length

/-! ## One step -/

theorem mem_coming {s : Play} {p : PeerPacket} : p ∈ s.coming ↔
    p ∈ s.front.incoming ∨ ∃ q : Packet, (.packet q ∈ s.batch ∨ .packet q ∈ s.front.waiting) ∧ q.toPeer = p := by
  simp [coming, mem_packets]

theorem coming_mono {s s' : Play} (hincoming : s'.front.incoming ⊆ s.front.incoming)
    (hevents : ∀ q : Packet, .packet q ∈ s'.batch ∨ .packet q ∈ s'.front.waiting →
      .packet q ∈ s.batch ∨ .packet q ∈ s.front.waiting) : s'.coming ⊆ s.coming := by
  intro p hp
  rw [mem_coming] at hp ⊢
  rcases hp with hp | ⟨q, hq, hqp⟩
  · exact .inl (hincoming hp)
  · exact .inr ⟨q, hevents q hq, hqp⟩

/-- A session that was just started brings no packets. -/
theorem starting_coming {s : Play} {byHost : Bool} {answer : Front × Bool} (h : s.front.Begins answer.1) :
    (s.starting byHost answer).coming ⊆ s.coming := by
  rcases h with hsame | ⟨life, hsession, hincoming, hnone⟩
  · refine coming_mono (by simp [hsame]) fun q hq => ?_
    simpa [hsame] using hq
  · refine coming_mono (by simp [hincoming]) fun q hq => .inl ?_
    have hno : .packet q ∉ life.events := by
      rw [← mem_packets, hnone]
      exact List.not_mem_nil
    simpa [Front.waiting, hsession, SessionHandle.waiting, hno] using hq

/-- Only the session brings packets. -/
theorem coming_subset {s s' : Play} {a : Action} (hs : Stepped s a s') (hno : ∀ b, a ≠ .session b) :
    s'.coming ⊆ s.coming := by
  cases hs with
  | host => exact starting_coming (s.front.host_begins ..)
  | join | joinTicket => exact starting_coming (s.front.join_begins ..)
  | close =>
    refine coming_mono (by simp [Front.close]) fun q hq => .inl (hq.resolve_right ?_)
    simp [Front.close, Front.waiting]
  | getPacket =>
    have hpop : s.front.popPacket.1.incoming ⊆ s.front.incoming ∧ s.front.popPacket.1.waiting = s.front.waiting := by
      unfold Front.popPacket
      split
      · exact ⟨List.Subset.refl _, rfl⟩
      next packet rest hin => exact ⟨hin ▸ List.subset_cons_self packet rest, rfl⟩
    exact coming_mono hpop.1 fun q hq => hq.imp_right fun hq => hpop.2 ▸ hq
  | poll =>
    refine coming_mono (List.Subset.refl _) fun q hq => .inr (hq.elim id fun hq => ?_)
    cases hsession : s.front.session with
    | none => simp [Front.waiting, Front.drain, hsession] at hq
    | some held => simp [Front.waiting, Front.drain, hsession, SessionHandle.waiting, SessionHandle.drained] at hq
  | @handle e rest hbatch =>
    have hrest : ∀ q : Packet, .packet q ∈ rest → .packet q ∈ s.batch := by
      intro q hq
      rw [hbatch]
      exact List.mem_cons_of_mem _ hq
    cases e with
    | packet q =>
      -- It moves from the batch to Godot's queue.
      intro p hp
      rw [mem_coming] at hp ⊢
      rcases hp with hp | ⟨q', hq', hqp⟩
      · rcases List.mem_append.1 hp with hp | hp
        · exact .inl hp
        · exact .inr ⟨q, .inl (by simp [hbatch]), (List.mem_singleton.1 hp).symm⟩
      · exact .inr ⟨q', hq'.imp_left (hrest q'), hqp⟩
    | closed reason =>
      refine coming_mono (List.Subset.refl _) fun q hq => .inl (hrest q (hq.resolve_right ?_))
      simp [Front.handle, Front.waiting]
    | ready | peerConnected | peerDisconnected | warning =>
      exact coming_mono (List.Subset.refl _) fun q hq => hq.imp_left (hrest q)
  | session => exact absurd rfl (hno _)

/-- The session that is held moves on. -/
theorem step_session {s s' : Play} {b : Life.Act} (hs : step s (.session b) = some s') :
    ∃ held life, s.front.session = some held ∧ held.life.step b = some life ∧
      s' = { s with front := { s.front with session := some { held with life := life } } } := by
  obtain ⟨held, hheld, hs⟩ := Option.bind_eq_some_iff.1 hs
  obtain ⟨held', hstep, rfl⟩ := Option.map_eq_some_iff.1 hs
  unfold SessionHandle.step at hstep
  split at hstep
  · simp at hstep
  · obtain ⟨life, hl, rfl⟩ := Option.map_eq_some_iff.1 hstep
    exact ⟨held, life, hheld, hl, rfl⟩

/-- The session brings at most one, and it is one that it is given. -/
theorem session_coming {s s' : Play} {b : Life.Act} (hgiven : s.Given) (hs : step s (.session b) = some s') :
    ∃ held life, s.front.session = some held ∧ held.life.step b = some life ∧
      ∀ p, p ∈ s'.coming ↔ p ∈ s.coming ∨ ∃ q ∈ held.life.gives b, q.toPeer = p := by
  obtain ⟨held, life, hheld, hl, rfl⟩ := step_session hs
  refine ⟨held, life, hheld, hl, fun p => ?_⟩
  obtain ⟨new, hnew, hgives⟩ := Life.step_gives hl
  have hwaiting : held.waiting ++ new = SessionHandle.waiting { held with life := life } := by
    rw [SessionHandle.waiting, SessionHandle.waiting, hnew, List.drop_append_of_le_length (hgiven held hheld)]
  have hmem : ∀ q : Packet, .packet q ∈ new ↔ q ∈ held.life.gives b := by
    intro q
    rw [← mem_packets, hgives, Option.mem_toList, Option.mem_def]
  simp only [mem_coming, Front.waiting, hheld, Option.map_some, Option.getD_some, ← hwaiting, List.mem_append, hmem]
  constructor
  · rintro (hp | ⟨q, hq | hq | hq, hqp⟩)
    · exact .inl (.inl hp)
    · exact .inl (.inr ⟨q, .inl hq, hqp⟩)
    · exact .inl (.inr ⟨q, .inr hq, hqp⟩)
    · exact .inr ⟨q, hq, hqp⟩
  · rintro ((hp | ⟨q, hq | hq, hqp⟩) | ⟨q, hq, hqp⟩)
    · exact .inl hp
    · exact .inr ⟨q, .inl hq, hqp⟩
    · exact .inr ⟨q, .inr (.inl hq), hqp⟩
    · exact .inr ⟨q, .inr (.inr hq), hqp⟩

theorem given_starting {s : Play} (h : s.Given) {byHost : Bool} {answer : Front × Bool}
    (hanswer : s.front.Begins answer.1) : (s.starting byHost answer).Given := by
  intro held hheld
  rw [starting_front] at hheld
  rcases hanswer with hsame | ⟨life, hsession, -⟩
  · exact h held (hsame ▸ hheld)
  · rw [hsession] at hheld
    rw [← Option.some.inj hheld]
    exact Nat.zero_le _

theorem given_step {s s' : Play} {a : Action} (h : s.Given) (hs : step s a = some s') : s'.Given := by
  cases step_cases hs with
  | host => exact given_starting h (s.front.host_begins ..)
  | join | joinTicket => exact given_starting h (s.front.join_begins ..)
  | close => simp [Given, Front.close]
  | getPacket =>
    have hsession : s.front.popPacket.1.session = s.front.session := by
      unfold Front.popPacket
      split <;> rfl
    exact fun held hheld => h held (hsession ▸ hheld)
  | poll =>
    intro held hheld
    obtain ⟨before, -, rfl⟩ := Option.map_eq_some_iff.1 hheld
    exact Nat.le_refl _
  | @handle e rest hbatch =>
    cases e with
    | closed reason => simp [Given, Front.handle]
    | ready | peerConnected | peerDisconnected | packet | warning => exact h
  | session =>
    obtain ⟨held, life, hheld, hl, he⟩ := step_session hs
    rw [he]
    intro after hafter
    rw [← Option.some.inj hafter]
    obtain ⟨new, hnew, -⟩ := Life.step_gives hl
    have hle := h held hheld
    show held.received ≤ life.events.length
    rw [hnew, List.length_append]
    omega

/-- A step keeps the packets within the bound exactly if its frame is. -/
theorem fits_step {s s' : Play} {a : Action} (h : s.Fits) (hgiven : s.Given) (hs : step s a = some s') :
    s'.Fits ↔ s.Within a := by
  rw [fits_iff] at h ⊢
  cases a with
  | session b =>
    obtain ⟨held, life, hheld, hl, hcoming⟩ := session_coming hgiven hs
    have hwithin : s.Within (.session b) ↔
        ∀ p ∈ held.life.gives b, p.mode = .reliable → p.data.length ≤ maxPacketSize.toNatClampNeg := by
      rw [Life.gives_reliable hl, Within, announces, hheld, Option.bind_some]
    rw [hwithin]
    constructor
    · intro hall q hq hreliable
      exact hall q.toPeer ((hcoming _).2 (.inr ⟨q, hq, rfl⟩)) (fromSessionMode_eq_reliable.2 hreliable)
    · intro hall p hp hreliable
      rcases (hcoming p).1 hp with hp | ⟨q, hq, rfl⟩
      · exact h p hp hreliable
      · exact hall q hq (fromSessionMode_eq_reliable.1 hreliable)
  | host | join | joinTicket | close | getPacket | poll | handle =>
    refine iff_of_true (fun p hp => h p (coming_subset (step_cases hs) (by simp) hp)) ?_
    simp [Within, announces]

/-! ## A frame all the way -/

/-- A stream opens, brings a frame and is read. -/
def reading (payload : Bytes) : List Arrival :=
  [.stream 0, .bytes 0 (putI32 0 ++ frame payload), .header 0, .frame 0]

/-- A client joins, its host sends it a frame, and `poll` hands it over. -/
def delivery (payload : Bytes) : List Action :=
  [.join true true false true, .session (.connected 0)] ++
    (reading payload).map (fun a => .session (.act (.arrive a))) ++ [.poll, .handle]

/-- What arrives at a session that is held. -/
theorem run_arrivals {s : Play} {t t' : Tasks} {n : Nat} {as : List Arrival}
    (hs : s.front.session = some ⟨.running t, n⟩) (h : Machine.run Tasks.step t (as.map .arrive) = some t') :
    Machine.run step s (as.map fun a => .session (.act (.arrive a))) =
      some { s with front := { s.front with session := some ⟨.running t', n⟩ } } := by
  induction as generalizing s t with
  | nil =>
    obtain rfl : t = t' := Option.some.inj h
    rw [List.map_nil, Machine.run_nil, ← hs]
  | cons a as ih =>
    obtain ⟨u, hu, h⟩ := Machine.run_cons.1 h
    refine Machine.run_cons.2 ⟨{ s with front := { s.front with session := some ⟨.running u, n⟩ } }, ?_, ih rfl h⟩
    simp [step, hs, SessionHandle.step, Life.step, hu]

/-- A client with one stream of its host. -/
def receiving (stream : Incoming) : Tasks := { Tasks.joined 0 with arrivals := { streams := [stream] } }

theorem step_header {payload rest : Bytes} {channel : Int32} (h : getI32 payload = some (channel, rest)) :
    (receiving ⟨hostId, none, payload⟩).step (.arrive (.header 0)) = some (receiving ⟨hostId, some channel, rest⟩) := by
  simp [receiving, Tasks.step, Arrivals.step, Arrivals.setStream, h]

theorem step_frame {payload rest frame : Bytes} {channel : Int32} (h : nextFrame payload = some (frame, rest))
    (hchannel : channel ≠ controlChannel) :
    (receiving ⟨hostId, some channel, payload⟩).step (.arrive (.frame 0)) =
      some ((receiving ⟨hostId, some channel, rest⟩).report (.packet ⟨hostId, channel, .reliable, frame⟩)) := by
  simp [receiving, Tasks.step, Arrivals.step, Arrivals.setStream, h, readFrame_of_ne hchannel]

/-- A frame is read whatever its length. -/
theorem run_reading {payload : Bytes} (h : payload.length < 2 ^ 32) :
    ∃ t, Machine.run Tasks.step (.joined 0) ((reading payload).map .arrive) = some t ∧
      t.state.events = [.packet ⟨hostId, 0, .reliable, payload⟩] := by
  have hstream : (Tasks.joined 0).step (.arrive (.stream 0)) = some (receiving ⟨hostId, none, []⟩) := rfl
  have hbytes (bytes : Bytes) : (receiving ⟨hostId, none, []⟩).step (.arrive (.bytes 0 bytes)) =
      some (receiving ⟨hostId, none, bytes⟩) := rfl
  have hnext : nextFrame (frame payload) = some (payload, []) := by
    simpa using nextFrame_frame h []
  refine ⟨_, Machine.run_cons.2 ⟨_, hstream, Machine.run_cons.2 ⟨_, hbytes _, Machine.run_cons.2
    ⟨_, step_header (getI32_putI32 0 _), Machine.run_cons.2 ⟨_, step_frame hnext (by decide), Machine.run_nil⟩⟩⟩⟩, ?_⟩
  rfl

/-- `poll` hands over a packet that waits alone. -/
theorem run_poll {s : Play} {q : Packet} (hbatch : s.batch = []) (hincoming : s.front.incoming = [])
    (hwaiting : s.front.waiting = [.packet q]) :
    ∃ t, Machine.run step s [.poll, .handle] = some t ∧ t.front.incoming = [q.toPeer] := by
  simp [Machine.run, step, hbatch, hwaiting, Front.handle, Front.drain, hincoming, Packet.toPeer]

/-- **A frame of any length is delivered**, and its length cut to an `i32`. -/
theorem delivered {payload : Bytes} (h : payload.length < 2 ^ 32) :
    ∃ s, Machine.run step {} (delivery payload) = some s ∧ s.front.getPacketMode = .reliable ∧
      s.front.packetOut = some (payload, .ofNat payload.length) := by
  obtain ⟨t, ht, hevents⟩ := run_reading h
  have hjoined : Machine.run step {} [.join true true false true, .session (.connected 0)] =
      some { front := { session := some ⟨.running (.joined 0), 0⟩, status := .connecting }
             started := 1, current := some 1 } := rfl
  have hread := Machine.run_append.2 ⟨_, hjoined, run_arrivals rfl ht⟩
  obtain ⟨s, hs, hincoming⟩ := run_poll (s :=
    { front := { session := some ⟨.running t, 0⟩, status := .connecting }, started := 1, current := some 1 })
    rfl rfl hevents
  refine ⟨s, Machine.run_append.2 ⟨_, hread, hs⟩, ?_, ?_⟩
  · simp [Front.getPacketMode, hincoming, Packet.toPeer, fromSessionMode]
  · simp [Front.packetOut, Front.popPacket, hincoming, Packet.toPeer, PeerPacket.bufferSize]

/-! ## Every run -/

/-- **Sizes of packets.** In every run of a peer, from its first session on,
the packets off the reliable streams are within the bound and reported at
their sizes exactly as long as no frame announces a length beyond it. -/
theorem packet_sizes_iff {as : List Action} {s : Play} (h : Machine.run step {} as = some s) :
    (∀ bs u, bs <+: as → Machine.run step {} bs = some u → u.Fits) ↔ Machine.Along step Within {} as := by
  have hgiven : ∀ {bs u}, Machine.run step {} bs = some u → u.Given := fun hu =>
    Machine.run_invariant (fun _ _ _ hI hs => given_step hI hs) hu (by simp [Given])
  have hstart : Fits {} := by simp [fits_iff, coming, Front.waiting, packets]
  rw [← Machine.invariant_iff_along (I := fun u : Play => u.Fits ∧ u.Given)
    (fun _ _ _ hI hs => (and_iff_left (given_step hI.2 hs)).trans (fits_step hI.1 hI.2 hs)) h
    ⟨hstart, by simp [Given]⟩]
  exact ⟨fun hall bs u hbs hu => ⟨hall bs u hbs hu, hgiven hu⟩, fun hall bs u hbs hu => (hall bs u hbs hu).1⟩

/-- A frame of one byte keeps within the bound all the way. -/
theorem packet_sizes_iff_small : ∃ s, Machine.run step {} (delivery [7]) = some s ∧
    ∀ bs u, bs <+: delivery [7] → Machine.run step {} bs = some u → u.Fits := by
  have hlength : ([7] : Bytes).length < 2 ^ 32 := by decide
  obtain ⟨s, hs, -, -⟩ := delivered hlength
  exact ⟨s, hs, (packet_sizes_iff hs).2 (by decide +kernel)⟩

/-- Two gigabytes of zeros are reported as a negative size. -/
theorem oversized_delivered : ∃ s, Machine.run step {} (delivery (List.replicate (2 ^ 31) 0)) = some s ∧
    s.front.packetOut = some (List.replicate (2 ^ 31) 0, -2147483648) ∧ ¬ s.Fits := by
  have hlength : (List.replicate (2 ^ 31) (0 : UInt8)).length = 2 ^ 31 := List.length_replicate
  have hlt : (List.replicate (2 ^ 31) (0 : UInt8)).length < 2 ^ 32 := by
    rw [hlength]
    decide
  obtain ⟨s, hs, hmode, hout⟩ := delivered hlt
  have hsize : Int32.ofNat (2 ^ 31) = -2147483648 := by decide
  rw [hlength, hsize] at hout
  refine ⟨s, hs, hout, fun h => ?_⟩
  exact absurd (h.handed _ _ hout hmode).2.1 (by decide)

end Play
end Gdiroh
