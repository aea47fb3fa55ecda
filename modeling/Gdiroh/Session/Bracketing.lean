/-
Packets and membership on their way to the main thread. A reader sends its
packets straight to the event queue; membership goes through the session
task. The two are not ordered with each other, so a packet can come out
before its peer is announced or after it is forgotten, and on a client before
`Ready` (`packet_before_ready`).

Here the session task's handlers are cut into the operations they are made
of, and every reader may take a step between any two of them: `add_link`
starts a connection's readers well before `welcome` announces the peer. The
operations of a handler, run one after the other, are the method of `State`
(`exec_welcomeOps` and the others).

`packets_bracketed`: the events are in order in every run in which packets
are handed over while their peer is announced.
-/
import Gdiroh.Session.Arrivals
import Gdiroh.Session.Handed
import Gdiroh.Lib.Machine

namespace Gdiroh.Session
open BigEndian Framing

/-- One operation of a handler. -/
inductive Op where
  | addLink (peer : Int32) (c : Connection)
  | controlTo (peer : Int32) (control : Control)
  | announce (peer : Int32)
  | forget (peer : Int32)
  | unlink (peer : Int32)
  | ready (id : Int32)
  | closed (reason : String)
  | sendOne (limits : Limits) (peer channel : Int32) (mode : Mode) (data : Bytes)
  | dropLink (peer : Int32)
  | finish (drained : List Connection)

def Op.exec (s : State) : Op → State
  | .addLink peer c => s.addLink peer c
  | .controlTo peer control => s.controlTo peer control
  | .announce peer => s.announce peer
  | .forget peer => s.forget peer
  | .unlink peer => s.unlink peer
  | .ready id => s.emit (.ready id)
  | .closed reason => s.emit (.closed reason)
  | .sendOne limits peer channel mode data => s.sendOne limits peer channel mode data
  | .dropLink peer => s.dropLink peer
  | .finish drained => s.finish drained

def welcomeOps (existing : List Int32) (peer : Int32) (c : Connection) : List Op :=
  .addLink peer c :: .controlTo peer (.welcome peer existing) ::
    (existing.map (.controlTo · (.peerJoined peer)) ++ [.announce peer])

def applyOps : Control → List Op
  | .welcome yourId peers => .ready yourId :: .announce hostId :: peers.map .announce
  | .peerJoined id => [.announce id]
  | .peerLeft id => [.forget id]

def lostOps (s : State) (others : List Int32) (peer : Int32) : List Op :=
  if peer ∈ s.links then
    .unlink peer :: .forget peer ::
      if s.isHost then others.map (.controlTo · (.peerLeft peer))
      else if peer = hostId then [.closed "host disconnected"]
      else []
  else []

def sendOps (s : State) (limits : Limits) (keys : List Int32) (target channel : Int32) (mode : Mode)
    (data : Bytes) : List Op :=
  if target ≤ 0 then (keys.filter (· ≠ -target)).map (.sendOne limits · channel mode data)
  else [.sendOne limits (if target ∈ s.links then target else hostId) channel mode data]

/-! ## The operations of a handler are its method -/

theorem foldl_exec_map (f : Int32 → Op) (peers : List Int32) (s : State) :
    (peers.map f).foldl Op.exec s = peers.foldl (fun s p => (f p).exec s) s := by
  rw [List.foldl_map]

theorem exec_welcomeOps (s : State) (existing : List Int32) (peer : Int32) (c : Connection) :
    (welcomeOps existing peer c).foldl Op.exec s = s.welcome existing peer c := by
  simp only [welcomeOps, List.foldl_cons, List.foldl_append, foldl_exec_map, List.foldl_nil]
  rfl

theorem exec_applyOps (s : State) (c : Control) : (applyOps c).foldl Op.exec s = s.apply c := by
  cases c with
  | welcome yourId peers =>
    simp only [applyOps, List.foldl_cons, foldl_exec_map]
    rfl
  | peerJoined id => rfl
  | peerLeft id => rfl

theorem exec_lostOps (s : State) (others : List Int32) (peer : Int32) :
    (lostOps s others peer).foldl Op.exec s = s.lost others peer := by
  unfold lostOps
  split
  · next hm =>
    rw [State.lost_eq hm, List.foldl_cons, List.foldl_cons]
    split
    · rw [foldl_exec_map]
      rfl
    split
    · rfl
    · rfl
  · next hm => rw [State.lost_of_not_mem hm]; rfl

theorem exec_sendOps (s : State) (limits : Limits) (keys : List Int32) (target channel : Int32) (mode : Mode)
    (data : Bytes) :
    (sendOps s limits keys target channel mode data).foldl Op.exec s = s.send limits keys target channel mode data := by
  unfold sendOps State.send
  split
  · rw [foldl_exec_map]
    rfl
  · rfl

/-! ## The session and its tasks -/

structure Tasks where
  state : State
  /-- What is left of the handler under way. -/
  todo : List Op := []
  /-- The task has left its loop. -/
  ended : Bool := false
  internal : List Internal := []
  nextId : Int32 := firstClientId
  watched : Finset Connection := ∅
  arrivals : Arrivals := {}

namespace Tasks

/-- An arm of the session task's `select`. -/
inductive Turn where
  | accept (c : Connection) (existing : List Int32)
  | send (limits : Limits) (keys : List Int32) (target channel : Int32) (mode : Mode) (data : Bytes)
  | disconnect (peer : Int32)
  | close (drained : List Connection)
  | internal (others : List Int32)

inductive Action where
  /-- The session task starts a handler. -/
  | turn (t : Turn)
  /-- The session task does one more operation of its handler. -/
  | tick
  /-- A connection ends, and its watcher reports it. -/
  | watch (c : Connection)
  /-- Something arrives, or a reader reads. -/
  | arrive (a : Arrival)

/-- A reader passes something on. -/
def report (t : Tasks) : Report → Tasks
  | .packet p => { t with state := t.state.emit (.packet p) }
  | .control c => { t with internal := t.internal ++ [.control c] }

/-- The task takes up a handler; only a host has connections to accept. -/
def start (t : Tasks) : Turn → Option Tasks
  | .accept c existing =>
    if t.state.isHost ∧ t.state.readers.lookup c = none ∧ existing.Perm t.state.links.keys then
      some { t with todo := welcomeOps existing t.nextId c, nextId := followingId t.nextId }
    else none
  | .send limits keys target channel mode data =>
    if keys.Perm t.state.links.keys then
      some { t with todo := sendOps t.state limits keys target channel mode data }
    else none
  | .disconnect peer => some { t with todo := [.dropLink peer] }
  | .close drained => some { t with todo := [.finish drained], ended := true }
  | .internal others =>
    match t.internal with
    | [] => none
    | .control c :: rest => some { t with todo := applyOps c, internal := rest }
    | .lost peer :: rest =>
      if others.Perm (t.state.links.erase peer).keys then
        some { t with todo := lostOps t.state others peer, internal := rest }
      else none

def step (t : Tasks) : Action → Option Tasks
  | .turn turn => if t.todo = [] ∧ t.ended = false then t.start turn else none
  | .tick =>
    match t.todo with
    | [] => none
    | op :: rest => some { t with state := op.exec t.state, todo := rest }
  | .watch c =>
    match t.state.readers.lookup c with
    | none => none
    | some peer =>
      if c ∈ t.watched then none
      else some { t with internal := t.internal ++ [.lost peer], watched := insert c t.watched }
  | .arrive a =>
    (t.arrivals.step t.state.readers a).map fun (arrivals, rep) =>
      let t := { t with arrivals := arrivals }
      rep.elim t t.report

def hosting : Tasks := { state := State.hosting }

def joined (c : Connection) : Tasks := { state := State.joined c }

/-- Left to itself, the task finishes its handler. -/
theorem run_ticks (t : Tasks) : Machine.run step t (List.replicate t.todo.length .tick) =
    some { t with state := t.todo.foldl Op.exec t.state, todo := [] } := by
  obtain ⟨s, todo, ended, internal, nextId, watched, arrivals⟩ := t
  induction todo generalizing s with
  | nil => rfl
  | cons op rest ih => exact ih (op.exec s)

end Tasks

/-! ## In order -/

/-- Something holds of what comes before each packet. -/
def BeforePackets (P : Packet → List Event → Prop) (events : List Event) : Prop :=
  ∀ before p after, events = before ++ .packet p :: after → P p before

/-- Every packet comes after its peer's `PeerConnected`, with no
`PeerDisconnected` of the peer in between. -/
def Bracketed (events : List Event) : Prop :=
  BeforePackets (fun p before => ∃ xs ys, before = xs ++ .peerConnected p.peer :: ys ∧
    .peerDisconnected p.peer ∉ ys) events

/-- Every packet comes after a `Ready`. -/
def ReadyFirst (events : List Event) : Prop := BeforePackets (fun _ before => ∃ id, .ready id ∈ before) events

theorem BeforePackets.append {P : Packet → List Event → Prop} {events new : List Event} (h : BeforePackets P events)
    (hnew : ∀ e ∈ new, e.packet? = none) : BeforePackets P (events ++ new) := by
  intro before p after he
  rcases List.append_eq_append_iff.1 he with ⟨ys, hb, hn⟩ | ⟨ys, hb, hn⟩
  · have hm : Event.packet p ∈ new := by rw [hn]; simp
    exact absurd (hnew _ hm) (by simp [Event.packet?])
  · cases ys with
    | nil =>
      rw [List.nil_append] at hn
      have hm : Event.packet p ∈ new := by rw [← hn]; simp
      exact absurd (hnew _ hm) (by simp [Event.packet?])
    | cons y ys =>
      rw [List.cons_append, List.cons.injEq] at hn
      obtain ⟨rfl, -⟩ := hn
      exact h before p ys hb

theorem BeforePackets.packet {P : Packet → List Event → Prop} {events : List Event} (h : BeforePackets P events)
    {p : Packet} (hp : P p events) : BeforePackets P (events ++ [.packet p]) := by
  intro before q after he
  rcases List.append_eq_append_iff.1 he with ⟨ys, hb, hn⟩ | ⟨ys, hb, hn⟩
  · cases ys with
    | nil =>
      rw [List.nil_append, List.cons.injEq, Event.packet.injEq] at hn
      rw [hb, List.append_nil, ← hn.1]
      exact hp
    | cons y ys => simp at hn
  · cases ys with
    | nil =>
      rw [List.nil_append, List.cons.injEq, Event.packet.injEq] at hn
      rw [List.append_nil] at hb
      rw [← hb, hn.1]
      exact hp
    | cons y ys =>
      rw [List.cons_append, List.cons.injEq] at hn
      obtain ⟨rfl, -⟩ := hn
      exact h before q ys hb

/-- When the last a peer was heard of is that it connected, there is such an
event and nothing against it since. -/
theorem split_of_heard {events : List Event} {peer : Int32} (h : (heard events peer).getLast? = some true) :
    ∃ xs ys, events = xs ++ .peerConnected peer :: ys ∧ .peerDisconnected peer ∉ ys := by
  induction events using List.reverseRecOn with
  | nil => simp [heard] at h
  | append_singleton es e ih =>
    rw [heard_append] at h
    by_cases he : e.heard peer = none
    · have hnone : heard [e] peer = [] := by simp [heard, he]
      rw [hnone, List.append_nil] at h
      obtain ⟨xs, ys, rfl, hys⟩ := ih h
      refine ⟨xs, ys ++ [e], by simp, fun hm => ?_⟩
      rcases List.mem_append.1 hm with hm | hm
      · exact hys hm
      · rw [← List.mem_singleton.1 hm] at he
        simp [Event.heard] at he
    · cases e with
      | peerConnected q =>
        by_cases hq : q = peer
        · exact ⟨es, [], by simp [hq], by simp⟩
        · simp [Event.heard, hq] at he
      | peerDisconnected q =>
        by_cases hq : q = peer
        · simp [heard, Event.heard, hq] at h
        · simp [Event.heard, hq] at he
      | _ => simp [Event.heard] at he

/-! ## One operation -/

namespace Op

theorem exec_told {s : State} (h : Told s.events s.announced) (op : Op) :
    Told (op.exec s).events (op.exec s).announced := by
  cases op with
  | addLink peer c => exact h
  | controlTo peer control =>
    rw [exec, State.controlTo, State.writeReliable_events, (State.writeReliable_same ..).announced]
    exact h
  | announce peer => exact State.announce_told h peer
  | forget peer => exact State.forget_told h peer
  | unlink peer => exact h
  | ready id => exact h.silent (show ∀ e ∈ [Event.ready id], e.Silent by simp [Event.Silent, Event.heard])
  | closed reason => exact h.silent (show ∀ e ∈ [Event.closed reason], e.Silent by simp [Event.Silent, Event.heard])
  | sendOne limits peer channel mode data =>
    exact (State.sendOne_warns ..).told (State.sendOne_same ..).announced h
  | dropLink peer => exact State.Adds.told (.of_eq (State.dropLink_events ..)) (State.dropLink_same ..).announced h
  | finish drained => exact h.silent (show ∀ e ∈ [Event.closed _], e.Silent by simp [Event.Silent, Event.heard])

theorem exec_adds (s : State) (op : Op) : s.Adds (fun e => e.packet? = none) (op.exec s) := by
  cases op with
  | addLink peer c => exact .of_eq rfl
  | controlTo peer control => exact .of_eq (State.writeReliable_events ..)
  | announce peer => exact (State.announce_adds s peer).mono fun e he => by rw [he]; rfl
  | forget peer => exact (State.forget_adds s peer).mono fun e he => by rw [he]; rfl
  | unlink peer => exact .of_eq rfl
  | ready id => exact .emit s rfl
  | closed reason => exact .emit s rfl
  | sendOne limits peer channel mode data => exact (State.sendOne_warns ..).mono fun _ => State.Warns.packet?
  | dropLink peer => exact .of_eq (State.dropLink_events ..)
  | finish drained => exact .emit { s with links := ∅, closes := _ } rfl

/-- Only `add_link` starts readers. -/
theorem exec_readers (s : State) {op : Op} (h : ∀ peer c, op ≠ .addLink peer c) :
    (op.exec s).readers = s.readers ∧ (op.exec s).isHost = s.isHost := by
  cases op with
  | addLink peer c => exact absurd rfl (h peer c)
  | controlTo peer control => exact ⟨(State.controlTo_same ..).readers, (State.controlTo_same ..).isHost⟩
  | announce peer => exact ⟨(State.announce_wire ..).readers, (State.announce_wire ..).isHost⟩
  | forget peer => exact ⟨(State.forget_wire ..).readers, (State.forget_wire ..).isHost⟩
  | sendOne limits peer channel mode data =>
    exact ⟨(State.sendOne_same ..).readers, (State.sendOne_same ..).isHost⟩
  | dropLink peer => exact ⟨(State.dropLink_same ..).readers, (State.dropLink_same ..).isHost⟩
  | unlink | ready | closed | finish => exact ⟨rfl, rfl⟩

/-- Only its own announcement announces a peer. -/
theorem exec_announced {s : State} {op : Op} {peer : Int32} (h : op ≠ .announce peer) (hs : peer ∉ s.announced) :
    peer ∉ (op.exec s).announced := by
  cases op with
  | announce q =>
    have hne : peer ≠ q := fun he => h (by rw [he])
    rw [exec, State.announce_announced, Finset.mem_insert]
    exact fun hm => hm.elim hne hs
  | forget q =>
    rw [exec, State.forget_announced]
    exact fun hm => hs (Finset.mem_of_mem_erase hm)
  | controlTo q control => rw [exec, (State.controlTo_same ..).announced]; exact hs
  | sendOne limits q channel mode data => rw [exec, (State.sendOne_same ..).announced]; exact hs
  | dropLink q => rw [exec, (State.dropLink_same ..).announced]; exact hs
  | addLink | unlink | ready | closed | finish => exact hs

end Op
namespace Tasks

/-! ## Whole runs -/

/-- The packet a reader's step hands over. -/
def handsOver (t : Tasks) (a : Arrival) : Option Packet :=
  (t.arrivals.step t.state.readers a).bind fun
    | (_, some (.packet p)) => some p
    | _ => none

/-- The step hands a packet over only while its peer is announced, and does
not have a client take a `PeerJoined` of the host before its `Welcome`. -/
def Met (t : Tasks) : Action → Prop
  | .arrive a => ∀ p ∈ t.handsOver a, p.peer ∈ t.state.announced
  | .turn (.internal _) => t.state.isHost = false →
      t.internal.head? = some (.control (.peerJoined hostId)) → hostId ∈ t.state.announced
  | _ => True

instance : ∀ (t : Tasks) (a : Action), Decidable (t.Met a)
  | t, .arrive a => inferInstanceAs (Decidable (∀ p ∈ t.handsOver a, p.peer ∈ t.state.announced))
  | t, .turn (.internal _) => inferInstanceAs (Decidable (t.state.isHost = false →
      t.internal.head? = some (.control (.peerJoined hostId)) → hostId ∈ t.state.announced))
  | _, .turn (.accept ..) | _, .turn (.send ..) | _, .turn (.disconnect _) | _, .turn (.close _)
  | _, .tick | _, .watch _ => isTrue trivial

theorem handsOver_of_step {t : Tasks} {a : Arrival} {arrivals : Arrivals} {p : Packet}
    (h : t.arrivals.step t.state.readers a = some (arrivals, some (.packet p))) : p ∈ t.handsOver a := by
  simp [handsOver, h]

/-- Before its `Ready`, a client has not announced the host and is not about
to. -/
def Introduced (t : Tasks) : Prop :=
  (∃ id, .ready id ∈ t.state.events) ∨
    hostId ∉ t.state.announced ∧ ((∃ id rest, t.todo = .ready id :: rest) ∨ .announce hostId ∉ t.todo)

/-- What holds of a client throughout: it reads the host alone. -/
structure Client (t : Tasks) : Prop where
  role : t.state.isHost = false
  readers : ∀ r ∈ t.state.readers, r.2 = hostId
  streams : ∀ s ∈ t.arrivals.streams, s.peer = hostId
  todo : ∀ peer c, .addLink peer c ∉ t.todo
  introduced : t.Introduced
  readyFirst : ReadyFirst t.state.events

structure Ordered (t : Tasks) : Prop where
  told : Told t.state.events t.state.announced
  bracketed : Bracketed t.state.events

theorem ordered_hosting : Ordered hosting where
  told := Told.nil.silent (show ∀ e ∈ [Event.ready hostId], e.Silent by simp [Event.Silent, Event.heard])
  bracketed := by
    intro before p after he
    have hm : Event.packet p ∈ [Event.ready hostId] := by
      have he : [Event.ready hostId] = _ := he
      rw [he]
      simp
    simp at hm

theorem ordered_joined (c : Connection) : Ordered (joined c) where
  told := Told.nil
  bracketed := by
    intro before p after he
    have he : [] = before ++ Event.packet p :: after := he
    simp at he

theorem client_joined (c : Connection) : Client (joined c) where
  role := rfl
  readers := by simp [joined, State.joined, State.addLink]
  streams := by simp [joined]
  todo := by simp [joined]
  introduced := .inr ⟨by simp [joined, State.joined, State.addLink], .inr (by simp [joined])⟩
  readyFirst := by
    intro before p after he
    have he : [] = before ++ Event.packet p :: after := he
    simp at he

/-- Starting a handler emits nothing and announces nobody. -/
theorem start_state {t t' : Tasks} {turn : Turn} (h : t.start turn = some t') :
    t'.state = t.state ∧ t'.arrivals = t.arrivals := by
  cases turn with
  | accept | send =>
    simp only [start] at h
    split at h
    · rw [← Option.some.inj h]; exact ⟨rfl, rfl⟩
    · simp at h
  | disconnect | close => rw [← Option.some.inj h]; exact ⟨rfl, rfl⟩
  | internal others =>
    simp only [start] at h
    split at h
    · simp at h
    · rw [← Option.some.inj h]; exact ⟨rfl, rfl⟩
    · split at h
      · rw [← Option.some.inj h]; exact ⟨rfl, rfl⟩
      · simp at h

theorem ordered_step {t t' : Tasks} {a : Action} (h : Ordered t) (hm : t.Met a) (hs : step t a = some t') :
    Ordered t' := by
  cases a with
  | turn turn =>
    simp only [step] at hs
    split at hs
    · exact ⟨(start_state hs).1 ▸ h.told, (start_state hs).1 ▸ h.bracketed⟩
    · simp at hs
  | tick =>
    simp only [step] at hs
    split at hs
    · simp at hs
    next op rest htodo =>
    rw [← Option.some.inj hs]
    obtain ⟨new, he, hnew⟩ := op.exec_adds t.state
    refine ⟨op.exec_told h.told, ?_⟩
    change Bracketed (op.exec t.state).events
    rw [he]
    exact h.bracketed.append hnew
  | watch c =>
    simp only [step] at hs
    split at hs
    · simp at hs
    split at hs
    · simp at hs
    · rw [← Option.some.inj hs]; exact ⟨h.told, h.bracketed⟩
  | arrive a =>
    simp only [step, Option.map_eq_some_iff, Prod.exists] at hs
    obtain ⟨arrivals, rep, ha, rfl⟩ := hs
    cases rep with
    | none => exact ⟨h.told, h.bracketed⟩
    | some rep =>
      cases rep with
      | control c => exact ⟨h.told, h.bracketed⟩
      | packet p =>
        have hp := hm p (handsOver_of_step ha)
        refine ⟨h.told.silent (show ∀ e ∈ [Event.packet p], e.Silent by simp [Event.Silent, Event.heard]), ?_⟩
        exact h.bracketed.packet (split_of_heard ((h.told.last p.peer).2 hp))

/-- Readers report under the peer they were started for. -/
theorem arrivals_peer {started : List (Connection × Int32)} {r r' : Arrivals} {a : Arrival} {rep : Option Report}
    {peer : Int32} (hstarted : ∀ x ∈ started, x.2 = peer) (hstreams : ∀ s ∈ r.streams, s.peer = peer)
    (h : r.step started a = some (r', rep)) :
    (∀ s ∈ r'.streams, s.peer = peer) ∧ ∀ p, rep = some (.packet p) → p.peer = peer := by
  have hlookup : ∀ c p, started.lookup c = some p → p = peer := by
    intro c p hl
    obtain ⟨xs, ys, he, -⟩ := List.lookup_eq_some_iff.1 hl
    exact hstarted (c, p) (by rw [he]; simp)
  have hset : ∀ i (s : Incoming), s.peer = peer → ∀ x ∈ (r.setStream i s).streams, x.peer = peer := by
    intro i s hs x hx
    rcases List.mem_or_eq_of_mem_set hx with hx | rfl
    · exact hstreams x hx
    · exact hs
  cases a with
  | stream c =>
    simp only [Arrivals.step, Option.map_eq_some_iff, Prod.mk.injEq] at h
    obtain ⟨p, hl, rfl, rfl⟩ := h
    refine ⟨fun s hs => ?_, nofun⟩
    rcases List.mem_append.1 hs with hs | hs
    · exact hstreams s hs
    · rw [List.mem_singleton.1 hs]; exact hlookup c p hl
  | bytes i bytes =>
    simp only [Arrivals.step, Option.map_eq_some_iff, Prod.mk.injEq] at h
    obtain ⟨s, hs, rfl, rfl⟩ := h
    exact ⟨hset i _ (hstreams s (List.mem_of_getElem? hs)), nofun⟩
  | header i =>
    simp only [Arrivals.step, Option.bind_eq_some_iff] at h
    obtain ⟨s, hs, h⟩ := h
    split at h
    · simp at h
    simp only [Option.map_eq_some_iff, Prod.exists, Prod.mk.injEq] at h
    obtain ⟨channel, rest, -, rfl, rfl⟩ := h
    exact ⟨hset i _ (hstreams s (List.mem_of_getElem? hs)), nofun⟩
  | frame i =>
    simp only [Arrivals.step, Option.bind_eq_some_iff, Option.map_eq_some_iff, Prod.exists, Prod.mk.injEq] at h
    obtain ⟨s, hs, channel, -, frame, rest, -, rfl, rfl⟩ := h
    have hpeer := hstreams s (List.mem_of_getElem? hs)
    refine ⟨hset i _ hpeer, fun p hp => ?_⟩
    by_cases hch : channel = controlChannel
    · rw [readFrame, if_pos hch, Option.map_eq_some_iff] at hp
      obtain ⟨c, -, hp⟩ := hp
      simp at hp
    · rw [readFrame_of_ne hch, Option.some.injEq, Report.packet.injEq] at hp
      rw [← hp]
      exact hpeer
  | datagram c datagram =>
    simp only [Arrivals.step, Option.map_eq_some_iff, Prod.mk.injEq] at h
    obtain ⟨q, hl, rfl, rfl⟩ := h
    refine ⟨hstreams, fun p hp => ?_⟩
    rw [Option.map_eq_some_iff] at hp
    obtain ⟨p', hp', he⟩ := hp
    obtain rfl : p' = p := by simpa using he
    rw [(readDatagram_some hp').1]
    exact hlookup c q hl

/-- What a client's handler is made of: never a new link, and the host's
announcement only after a `Ready`. -/
theorem start_client {t t' : Tasks} (h : Client t) {turn : Turn} (hm : t.Met (.turn turn))
    (hs : t.start turn = some t') : (∀ peer c, .addLink peer c ∉ t'.todo) ∧ t'.Introduced := by
  have hstate := (start_state hs).1
  -- Handlers that announce nobody.
  have keep : (∀ p, .announce p ∉ t'.todo) → (∀ peer c, .addLink peer c ∉ t'.todo) →
      (∀ peer c, .addLink peer c ∉ t'.todo) ∧ t'.Introduced := by
    intro hno hlink
    refine ⟨hlink, ?_⟩
    rw [Introduced, hstate]
    exact h.introduced.imp_right fun hi => ⟨hi.1, .inr (hno hostId)⟩
  cases turn with
  | accept c existing =>
    simp only [start, h.role, Bool.false_eq_true, false_and, if_false] at hs
    simp at hs
  | send limits keys target channel mode data =>
    simp only [start] at hs
    split at hs
    · rw [← Option.some.inj hs] at keep ⊢
      refine keep (fun p hp => ?_) (fun peer c hp => ?_)
      · simp only [sendOps] at hp
        split at hp <;> simp at hp
      · simp only [sendOps] at hp
        split at hp <;> simp at hp
    · simp at hs
  | disconnect peer =>
    rw [← Option.some.inj hs] at keep ⊢
    exact keep (by simp) (by simp)
  | close drained =>
    rw [← Option.some.inj hs] at keep ⊢
    exact keep (by simp) (by simp)
  | internal others =>
    simp only [start] at hs
    split at hs
    · simp at hs
    · next c rest hint =>
      rw [← Option.some.inj hs] at keep ⊢
      cases c with
      | welcome yourId peers =>
        refine ⟨by simp [applyOps], ?_⟩
        exact h.introduced.imp_right fun hi => ⟨hi.1, .inl ⟨_, _, rfl⟩⟩
      | peerJoined id =>
        refine ⟨by simp [applyOps], ?_⟩
        rcases h.introduced with hr | ⟨hno, -⟩
        · exact .inl hr
        · refine .inr ⟨hno, .inr ?_⟩
          by_cases hid : id = hostId
          · subst hid
            exact absurd (hm h.role (by rw [hint]; rfl)) hno
          · simp [applyOps, Ne.symm hid]
      | peerLeft id => exact keep (by simp [applyOps]) (by simp [applyOps])
    · split at hs
      · rw [← Option.some.inj hs] at keep ⊢
        refine keep (fun p hp => ?_) (fun peer c hp => ?_)
        · simp only [lostOps, h.role] at hp
          split at hp
          · simp only [Bool.false_eq_true, if_false] at hp
            split at hp <;> simp at hp
          · simp at hp
        · simp only [lostOps, h.role] at hp
          split at hp
          · simp only [Bool.false_eq_true, if_false] at hp
            split at hp <;> simp at hp
          · simp at hp
      · simp at hs

/-- One operation of a client's handler. -/
theorem tick_client {t : Tasks} (h : Client t) {op : Op} {rest : List Op} (htodo : t.todo = op :: rest) :
    Client { t with state := op.exec t.state, todo := rest } := by
  have hlink : ∀ peer c, op ≠ .addLink peer c := fun peer c he => h.todo peer c (by simp [htodo, he])
  obtain ⟨hreaders, hrole⟩ := op.exec_readers t.state hlink
  obtain ⟨new, he, hnew⟩ := op.exec_adds t.state
  refine ⟨hrole.trans h.role, fun r hr => ?_, h.streams, fun peer c hm => ?_, ?_, ?_⟩
  · exact h.readers r (hreaders ▸ hr)
  · exact h.todo peer c (by rw [htodo]; exact List.mem_cons_of_mem _ hm)
  · rcases h.introduced with ⟨id, hr⟩ | ⟨hno, hnext⟩
    · exact .inl ⟨id, by rw [he]; exact List.mem_append_left _ hr⟩
    rcases hnext with ⟨id, rest', hready⟩ | hann
    · rw [htodo, List.cons.injEq] at hready
      obtain ⟨rfl, -⟩ := hready
      exact .inl ⟨id, by simp [Op.exec, State.emit]⟩
    · rw [htodo, List.mem_cons, not_or] at hann
      exact .inr ⟨Op.exec_announced (Ne.symm hann.1) hno, .inr hann.2⟩
  · change ReadyFirst (op.exec t.state).events
    rw [he]
    exact h.readyFirst.append hnew

theorem client_step {t t' : Tasks} {a : Action} (h : Client t) (hm : t.Met a) (hs : step t a = some t') :
    Client t' := by
  cases a with
  | turn turn =>
    simp only [step] at hs
    split at hs
    · obtain ⟨hstate, harr⟩ := start_state hs
      obtain ⟨hlink, hintro⟩ := start_client h hm hs
      exact ⟨hstate ▸ h.role, hstate ▸ h.readers, harr ▸ h.streams, hlink, hintro, hstate ▸ h.readyFirst⟩
    · simp at hs
  | tick =>
    simp only [step] at hs
    split at hs
    · simp at hs
    · next htodo => rw [← Option.some.inj hs]; exact tick_client h htodo
  | watch c =>
    simp only [step] at hs
    split at hs
    · simp at hs
    split at hs
    · simp at hs
    · rw [← Option.some.inj hs]
      exact ⟨h.role, h.readers, h.streams, h.todo, h.introduced, h.readyFirst⟩
  | arrive a =>
    simp only [step, Option.map_eq_some_iff, Prod.exists] at hs
    obtain ⟨arrivals, rep, ha, rfl⟩ := hs
    obtain ⟨hstreams, hpeer⟩ := arrivals_peer h.readers h.streams ha
    cases rep with
    | none => exact ⟨h.role, h.readers, hstreams, h.todo, h.introduced, h.readyFirst⟩
    | some rep =>
      cases rep with
      | control c => exact ⟨h.role, h.readers, hstreams, h.todo, h.introduced, h.readyFirst⟩
      | packet p =>
        -- The host is announced by now, so `Ready` is out.
        have hann : hostId ∈ t.state.announced := hpeer p rfl ▸ hm p (handsOver_of_step ha)
        have hready : ∃ id, .ready id ∈ t.state.events := by
          rcases h.introduced with hr | ⟨hno, -⟩
          · exact hr
          · exact absurd hann hno
        obtain ⟨id, hr⟩ := hready
        exact ⟨h.role, h.readers, hstreams, h.todo, .inl ⟨id, List.mem_append_left _ hr⟩,
          h.readyFirst.packet ⟨id, hr⟩⟩

/-- **Packets are bracketed by membership**, on a host and on a client, in
every run in which each packet is handed over while the session's task has
its peer announced (and a client's host does not introduce itself by a
`PeerJoined`): every packet comes after its peer's `PeerConnected` with no
`PeerDisconnected` since, and on a client after `Ready`. -/
theorem packets_bracketed {as : List Action} {t : Tasks} :
    (Machine.run step hosting as = some t → Machine.Along step Met hosting as → Bracketed t.state.events) ∧
    ∀ c, Machine.run step (joined c) as = some t → Machine.Along step Met (joined c) as →
      Bracketed t.state.events ∧ ReadyFirst t.state.events := by
  have hordered : ∀ {t₀ : Tasks}, Ordered t₀ → Machine.run step t₀ as = some t → Machine.Along step Met t₀ as →
      Ordered t := fun h₀ hs hm =>
    Machine.run_invariant_along (fun _ _ _ h hm hs => ordered_step h hm hs) hs hm h₀
  refine ⟨fun hs hm => (hordered ordered_hosting hs hm).bracketed, fun c hs hm => ⟨?_, ?_⟩⟩
  · exact (hordered (ordered_joined c) hs hm).bracketed
  · have hclient : Client t :=
      Machine.run_invariant_along (fun _ _ _ h hm hs => client_step h hm hs) hs hm (client_joined c)
    exact hclient.readyFirst

/-- A client is welcomed, and then its host sends a packet. -/
def welcomed : List Action :=
  [.arrive (.stream 0), .arrive (.bytes 0 (putI32 controlChannel ++ frame (Control.welcome 2 []).encode)),
    .arrive (.header 0), .arrive (.frame 0), .turn (.internal []), .tick, .tick,
    .arrive (.stream 0), .arrive (.bytes 1 (putI32 0 ++ frame [7])), .arrive (.header 1), .arrive (.frame 1)]

theorem packets_bracketed_welcomed :
    ∃ t, Machine.run step (joined 0) welcomed = some t ∧
      t.state.events = [.ready 2, .peerConnected 1, .packet ⟨1, 0, .reliable, [7]⟩] ∧
      Bracketed t.state.events ∧ ReadyFirst t.state.events := by
  have hrun : ((Machine.run step (joined 0) welcomed).map fun t => t.state.events) =
      some [.ready 2, .peerConnected 1, .packet ⟨1, 0, .reliable, [7]⟩] := by
    decide +kernel
  obtain ⟨t, hs, he⟩ := Option.map_eq_some_iff.1 hrun
  have hmet : Machine.Along step Met (joined 0) welcomed := by
    decide +kernel
  exact ⟨t, hs, he, packets_bracketed.2 0 hs hmet⟩

/-- Two streams reach a client; the one with the packet is read first. -/
theorem packet_before_ready : ¬ ∀ as c t, Machine.run step (joined c) as = some t →
    Bracketed t.state.events ∧ ReadyFirst t.state.events := by
  intro hall
  have hrun : ((Machine.run step (joined 0) [.arrive (.stream 0), .arrive (.bytes 0 (putI32 0 ++ frame [7])),
      .arrive (.header 0), .arrive (.frame 0)]).map fun t => t.state.events) =
      some [.packet ⟨1, 0, .reliable, [7]⟩] := by
    decide +kernel
  obtain ⟨t, hs, he⟩ := Option.map_eq_some_iff.1 hrun
  obtain ⟨id, hr⟩ := (hall _ 0 t hs).2 [] ⟨1, 0, .reliable, [7]⟩ [] he
  simp at hr

end Tasks
end Gdiroh.Session
