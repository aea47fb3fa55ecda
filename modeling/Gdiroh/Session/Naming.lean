/-
Who a peer id names. A connection's readers put the id it was registered under
on every packet they hand over, and script looks the id up in the map that the
session task shares with the main thread (`peer_connection` and
`peer_endpoint_id` in `session.rs`).

`named_by_sender`: a packet's id never looks up an endpoint other than the one
that sent the packet, until the ids have been all the way around.
`lookups_exact`: a host's lookups answer for exactly the peers that its events
say are connected, at every moment, if and only if no client gets it to take a
control message that changes membership.
-/
import Gdiroh.Session.Booking

namespace Gdiroh.Session
open BigEndian Framing

/-! ## Where packets come from -/

/-- Whether the reader a stream or a datagram gets is one of the connection's,
and what becomes of the streams. -/
theorem Arrivals.step_peers {started : List (Connection × Int32)} {r r' : Arrivals} {a : Arrival} {rep : Option Report}
    (h : r.step started a = some (r', rep)) :
    (∃ c peer, a = .stream c ∧ started.lookup c = some peer ∧ r'.streams = r.streams ++ [{ peer := peer }]) ∨
      (∀ c, a ≠ .stream c) ∧ r'.streams.map (·.peer) = r.streams.map (·.peer) := by
  have hset : ∀ i (s s' : Incoming), r.streams[i]? = some s → s'.peer = s.peer →
      (r.setStream i s').streams.map (·.peer) = r.streams.map (·.peer) := by
    intro i s s' hs hpeer
    have hi : (r.streams.map (·.peer))[i]? = some s.peer := by rw [List.getElem?_map, hs]; rfl
    obtain ⟨hlt, he⟩ := List.getElem?_eq_some_iff.1 hi
    rw [Arrivals.setStream, List.map_set, hpeer, ← he, List.set_getElem_self]
  cases a with
  | stream c =>
    obtain ⟨peer, hl, he⟩ := Option.map_eq_some_iff.1 h
    rw [← (Prod.mk.inj he).1]
    exact .inl ⟨c, peer, rfl, hl, rfl⟩
  | bytes i bytes =>
    obtain ⟨s, hs, he⟩ := Option.map_eq_some_iff.1 h
    rw [← (Prod.mk.inj he).1]
    exact .inr ⟨nofun, hset i s _ hs rfl⟩
  | header i =>
    obtain ⟨s, hs, h⟩ := Option.bind_eq_some_iff.1 h
    split at h
    · simp at h
    obtain ⟨⟨channel, rest⟩, -, he⟩ := Option.map_eq_some_iff.1 h
    rw [← (Prod.mk.inj he).1]
    exact .inr ⟨nofun, hset i s _ hs rfl⟩
  | frame i =>
    obtain ⟨s, hs, h⟩ := Option.bind_eq_some_iff.1 h
    obtain ⟨channel, -, h⟩ := Option.bind_eq_some_iff.1 h
    obtain ⟨⟨frame, rest⟩, -, he⟩ := Option.map_eq_some_iff.1 h
    rw [← (Prod.mk.inj he).1]
    exact .inr ⟨nofun, hset i s _ hs rfl⟩
  | datagram c datagram =>
    obtain ⟨peer, -, he⟩ := Option.map_eq_some_iff.1 h
    rw [← (Prod.mk.inj he).1]
    exact .inr ⟨nofun, rfl⟩

/-- A packet is labelled as its stream or its connection is. -/
theorem Arrivals.step_packet {started : List (Connection × Int32)} {r r' : Arrivals} {a : Arrival} {p : Packet}
    (h : r.step started a = some (r', some (.packet p))) :
    (∃ i s, a = .frame i ∧ r.streams[i]? = some s ∧ p.peer = s.peer) ∨
      ∃ c datagram, a = .datagram c datagram ∧ started.lookup c = some p.peer := by
  cases a with
  | stream c =>
    obtain ⟨peer, -, he⟩ := Option.map_eq_some_iff.1 h
    simp at he
  | bytes i bytes =>
    obtain ⟨s, -, he⟩ := Option.map_eq_some_iff.1 h
    simp at he
  | header i =>
    obtain ⟨s, -, h⟩ := Option.bind_eq_some_iff.1 h
    split at h
    · simp at h
    obtain ⟨x, -, he⟩ := Option.map_eq_some_iff.1 h
    simp at he
  | frame i =>
    obtain ⟨s, hs, h⟩ := Option.bind_eq_some_iff.1 h
    obtain ⟨channel, -, h⟩ := Option.bind_eq_some_iff.1 h
    obtain ⟨⟨frame, rest⟩, -, he⟩ := Option.map_eq_some_iff.1 h
    have hread := (Prod.mk.inj he).2
    unfold readFrame at hread
    split at hread
    · obtain ⟨c, -, hc⟩ := Option.map_eq_some_iff.1 hread
      simp at hc
    · obtain rfl := Report.packet.inj (Option.some.inj hread)
      exact .inl ⟨i, s, rfl, hs, rfl⟩
  | datagram c datagram =>
    obtain ⟨peer, hl, he⟩ := Option.map_eq_some_iff.1 h
    obtain ⟨q, hq, hp⟩ := Option.map_eq_some_iff.1 (Prod.mk.inj he).2
    obtain rfl := Report.packet.inj hp
    exact .inr ⟨c, datagram, rfl, (readDatagram_some hq).1 ▸ hl⟩

/-! ## Packets with the connections they came over -/

/-- A session, with the connection each stream came over and each packet that
was handed over. -/
structure Traced where
  life : Life
  opened : List Connection := []
  came : List (Connection × Packet) := []

namespace Traced

/-- The connection that a reader's step is about. -/
def via (n : Traced) : Arrival → Option Connection
  | .stream c | .datagram c _ => some c
  | .bytes i _ | .header i | .frame i => n.opened[i]?

/-- The packet that a step hands over, with its connection. -/
def gives (n : Traced) : Life.Act → Option (Connection × Packet)
  | .act (.arrive a) =>
    match n.life with
    | .running t => (n.via a).bind fun c => (t.handsOver a).map fun p => (c, p)
    | _ => none
  | _ => none

/-- The connection over which a step opens a stream. -/
def opens : Life.Act → List Connection
  | .act (.arrive (.stream c)) => [c]
  | _ => []

def step (n : Traced) (a : Life.Act) : Option Traced :=
  (n.life.step a).map fun life =>
    { life := life, opened := n.opened ++ opens a, came := n.came ++ (n.gives a).toList }

/-- Streams and packets are labelled with an id that their connection was
registered under. -/
structure Labelled (opened : List Connection) (came : List (Connection × Packet)) (t : Tasks) : Prop where
  length : opened.length = t.arrivals.streams.length
  streams : ∀ (i : Nat) c peer, opened[i]? = some c → (t.arrivals.streams.map (·.peer))[i]? = some peer →
    (c, peer) ∈ t.state.readers
  labels : ∀ x ∈ came, (x.1, x.2.peer) ∈ t.state.readers
  packets : Session.packets t.state.events = came.map (·.2)

variable {opened : List Connection} {came : List (Connection × Packet)} {t t' : Tasks}

/-- Nothing comes, and readers may start. -/
theorem Labelled.grow (h : Labelled opened came t) (harrivals : t'.arrivals = t.arrivals)
    (hreaders : t.state.readers <+: t'.state.readers)
    (hpackets : Session.packets t'.state.events = Session.packets t.state.events) : Labelled opened came t' where
  length := by rw [harrivals]; exact h.length
  streams := by rw [harrivals]; exact fun i c peer hc hp => hreaders.subset (h.streams i c peer hc hp)
  labels := fun x hx => hreaders.subset (h.labels x hx)
  packets := hpackets.trans h.packets

/-- Something arrives. -/
theorem Labelled.arrive {n : Traced} (h : Labelled n.opened n.came t) (hlife : n.life = .running t) {a : Arrival}
    (hs : t.step (.arrive a) = some t') :
    Labelled (n.opened ++ opens (.act (.arrive a))) (n.came ++ (n.gives (.act (.arrive a))).toList) t' := by
  simp only [Tasks.step, Option.map_eq_some_iff, Prod.exists] at hs
  obtain ⟨arrivals, rep, ha, rfl⟩ := hs
  have hstreams : (n.opened ++ opens (.act (.arrive a))).length = arrivals.streams.length ∧
      ∀ (i : Nat) c peer, (n.opened ++ opens (.act (.arrive a)))[i]? = some c →
        (arrivals.streams.map (·.peer))[i]? = some peer → (c, peer) ∈ t.state.readers := by
    rcases Arrivals.step_peers ha with ⟨c, peer, rfl, hl, he⟩ | ⟨hno, he⟩
    · refine ⟨by simp [he, opens, h.length], fun i d p hd hp => ?_⟩
      rw [he, List.map_append, List.map_singleton] at hp
      rcases Logs.getElem?_concat.1 hd with hd | ⟨rfl, rfl⟩
      · rcases Logs.getElem?_concat.1 hp with hp | ⟨rfl, rfl⟩
        · exact h.streams i d p hd hp
        · have := (List.getElem?_eq_some_iff.1 hd).1
          rw [List.length_map] at this
          have := h.length
          omega
      · rcases Logs.getElem?_concat.1 hp with hp | ⟨-, rfl⟩
        · have := (List.getElem?_eq_some_iff.1 hp).1
          rw [List.length_map] at this
          have := h.length
          omega
        · exact mem_of_lookup hl
    · have hopens : opens (.act (.arrive a)) = [] := by
        cases a with
        | stream c => exact absurd rfl (hno c)
        | _ => rfl
      rw [hopens, List.append_nil, he]
      exact ⟨h.length.trans (by simpa using (congrArg List.length he).symm), h.streams⟩
  have hgives : n.gives (.act (.arrive a)) = (n.via a).bind fun c => (t.handsOver a).map fun p => (c, p) := by
    rw [gives, hlife]
  -- Nothing is handed over, and the events stay.
  have hnone : t.handsOver a = none → n.gives (.act (.arrive a)) = none := by
    intro hh
    rw [hgives, hh]
    cases n.via a <;> rfl
  cases rep with
  | none =>
    rw [hnone (by simp [Tasks.handsOver, ha]), Option.toList_none, List.append_nil]
    exact ⟨hstreams.1, hstreams.2, h.labels, h.packets⟩
  | some rep =>
    cases rep with
    | control c =>
      rw [hnone (by simp [Tasks.handsOver, ha]), Option.toList_none, List.append_nil]
      exact ⟨hstreams.1, hstreams.2, h.labels, h.packets⟩
    | packet p =>
      obtain ⟨c, hvia, hlabel⟩ : ∃ c, n.via a = some c ∧ (c, p.peer) ∈ t.state.readers := by
        rcases Arrivals.step_packet ha with ⟨i, s, rfl, hs, hp⟩ | ⟨c, datagram, rfl, hl⟩
        · have hlt : i < n.opened.length := h.length ▸ (List.getElem?_eq_some_iff.1 hs).1
          refine ⟨n.opened[i], List.getElem?_eq_getElem hlt, ?_⟩
          refine h.streams i _ _ (List.getElem?_eq_getElem hlt) ?_
          rw [List.getElem?_map, hs, hp]
          rfl
        · exact ⟨c, rfl, mem_of_lookup hl⟩
      have hhands : t.handsOver a = some p := by simp [Tasks.handsOver, ha]
      rw [hgives, hvia, hhands]
      refine ⟨hstreams.1, hstreams.2, fun x hx => ?_, ?_⟩
      · rcases List.mem_append.1 hx with hx | hx
        · exact h.labels x hx
        · obtain rfl := List.mem_singleton.1 hx
          exact hlabel
      · change Session.packets (t.state.events ++ [.packet p]) = _
        rw [Session.packets, List.filterMap_append, List.map_append, ← h.packets]
        rfl

/-- A step that is not a reader's. -/
theorem Labelled.own (h : Labelled opened came t) {a : Tasks.Action} (ha : ∀ b, a ≠ .arrive b)
    (hs : t.step a = some t') : Labelled opened came t' := by
  have hgrow := Tasks.step_readers_grow hs
  cases a with
  | turn turn =>
    simp only [Tasks.step] at hs
    split at hs
    · obtain ⟨hstate, harrivals⟩ := Tasks.start_state hs
      exact h.grow harrivals hgrow (by rw [hstate])
    · simp at hs
  | tick =>
    simp only [Tasks.step] at hs
    split at hs
    · simp at hs
    next op rest _ =>
      rw [← Option.some.inj hs] at hgrow ⊢
      exact h.grow rfl hgrow ((op.exec_adds t.state).packets fun _ => id)
  | watch c =>
    simp only [Tasks.step] at hs
    split at hs
    · simp at hs
    · split at hs
      · simp at hs
      · rw [← Option.some.inj hs] at hgrow ⊢
        exact h.grow rfl hgrow rfl
  | arrive b => exact absurd rfl (ha b)

theorem Labelled.init {t : Tasks} (hstreams : t.arrivals.streams = [])
    (hpackets : Session.packets t.state.events = []) : Labelled [] [] t where
  length := by rw [hstreams]; rfl
  streams := by simp
  labels := by simp
  packets := hpackets

/-- A session that runs is labelled, booked and numbered. -/
def Kept (n : Traced) : Prop :=
  match n.life with
  | .dialling => n.opened = [] ∧ n.came = []
  | .running t => Labelled n.opened n.came t ∧ t.Booked ∧ t.Numbered
  | .settled events => n.came = [] ∧ packets events = []

theorem kept_joined (c : Connection) : (Tasks.joined c).Booked ∧ (Tasks.joined c).Numbered := by
  have hregistered : (State.joined c).Registered :=
    Op.exec_registered (show State.Registered { isHost := false } by intro p d hp; simp at hp) (.addLink hostId c)
  have hshared : (State.joined c).Shared :=
    Op.exec_shared (show State.Shared { isHost := false } by intro p; simp [State.connOf])
      (show ¬ (Op.addLink hostId c).Finishes from id)
  exact ⟨⟨Told.nil, hregistered, fun _ => hshared, fun _ => by simp [Tasks.joined]⟩,
    ⟨fun hr => by simp [Tasks.joined, State.joined, State.addLink] at hr, fun _ => Nat.le_refl 1⟩⟩

theorem kept_hosting : Tasks.hosting.Booked ∧ Tasks.hosting.Numbered := by
  refine ⟨⟨?_, ?_, fun _ => ?_, fun _ => by simp [Tasks.hosting]⟩, ⟨fun _ => ⟨?_, IsId.first⟩, fun hr => ?_⟩⟩
  · exact Tasks.ordered_hosting.told
  · intro p d hp
    simp [Tasks.hosting, State.hosting] at hp
  · intro p
    simp [Tasks.hosting, State.hosting, State.connOf]
  · intro j x hj
    simp [Tasks.settled, Tasks.hosting, State.hosting] at hj
  · simp [Tasks.hosting, State.hosting] at hr

theorem kept_step {n n' : Traced} {a : Life.Act} (h : n.Kept) (hs : n.step a = some n') : n'.Kept := by
  obtain ⟨l, hl, rfl⟩ := Option.map_eq_some_iff.1 hs
  obtain ⟨life, opened, came⟩ := n
  cases life with
  | dialling =>
    obtain ⟨rfl, rfl⟩ := h
    cases a with
    | connected c =>
      obtain rfl := Option.some.inj hl
      exact ⟨.init rfl rfl, kept_joined c⟩
    | failed text =>
      obtain rfl := Option.some.inj hl
      exact ⟨rfl, rfl⟩
    | act a => simp [Life.step] at hl
  | running t =>
    obtain ⟨hlabelled, hbooked, hnumbered⟩ := h
    cases a with
    | act a =>
      obtain ⟨t', ht, rfl⟩ := Option.map_eq_some_iff.1 hl
      refine ⟨?_, Tasks.booked_step hbooked ht, Tasks.numbered_step hnumbered ht⟩
      by_cases ha : ∃ b, a = .arrive b
      · obtain ⟨b, rfl⟩ := ha
        exact Labelled.arrive (n := ⟨.running t, opened, came⟩) hlabelled rfl ht
      · have hown := hlabelled.own (fun b he => ha ⟨b, he⟩) ht
        cases a with
        | arrive b => exact absurd ⟨b, rfl⟩ ha
        | _ => simpa [opens, gives] using hown
    | connected c => simp [Life.step] at hl
    | failed text => simp [Life.step] at hl
  | settled events => cases a <;> simp [Life.step] at hl

end Traced

/-! ## Lookups -/

namespace Life

/-- The map script reads. -/
def connections : Life → AList fun _ : Int32 => Connection
  | .running t => t.state.connections
  | .dialling | .settled _ => ∅

/-- How many connections were registered. -/
def registered : Life → Nat
  | .running t => t.state.readers.length
  | .dialling | .settled _ => 0

/-- `Session::peer_connection` -/
def peerConnection (l : Life) (peer : Int32) : Option Connection := l.connections.lookup peer

/-- `Session::peer_endpoint_id`. `remoteId` is the endpoint at the other end
of a connection. -/
def peerEndpointId (remoteId : Connection → String) (l : Life) (peer : Int32) : Option String :=
  (l.peerConnection peer).map remoteId

end Life

namespace Traced

/-- **A peer id names who sent.** In every run of a session, hosting or
joining, whatever arrives: the packets are those that came over its
connections, and looking up a packet's peer, at any time, answers the endpoint
that sent it or nothing, unless more connections were registered than there
are ids. -/
theorem named_by_sender {l : Life}
    (hl : (∃ registered running, l = .host registered running) ∨ ∃ running, l = .join running)
    {as : List Life.Act} {n : Traced} (h : Machine.run step { life := l } as = some n) :
    packets n.life.events = n.came.map (·.2) ∧ ∀ c p, (c, p) ∈ n.came → ∀ remoteId id,
      n.life.peerEndpointId remoteId p.peer = some id → id = remoteId c ∨ ids < n.life.registered := by
  have hstart : Kept { life := l } := by
    rcases hl with ⟨registered, running, rfl⟩ | ⟨running, rfl⟩
    · unfold Life.host
      split
      · exact ⟨rfl, rfl⟩
      split
      · exact ⟨rfl, rfl⟩
      · exact ⟨.init rfl rfl, kept_hosting⟩
    · unfold Life.join
      split
      · exact ⟨rfl, rfl⟩
      · exact ⟨rfl, rfl⟩
  have hn : n.Kept := Machine.run_invariant (fun _ _ _ => kept_step) h hstart
  obtain ⟨life, opened, came⟩ := n
  cases life with
  | dialling =>
    obtain ⟨-, rfl⟩ := hn
    exact ⟨rfl, by simp⟩
  | settled events =>
    obtain ⟨rfl, hpackets⟩ := hn
    exact ⟨hpackets, by simp⟩
  | running t =>
    obtain ⟨hlabelled, hbooked, hnumbered⟩ := hn
    refine ⟨hlabelled.packets, fun c p hc remoteId id hid => ?_⟩
    obtain ⟨d, hd, rfl⟩ := Option.map_eq_some_iff.1 hid
    rcases hnumbered.unique (hbooked.registered p.peer d hd) (hlabelled.labels (c, p) hc) with rfl | hmany
    · exact .inl rfl
    · exact .inr hmany

/-- A client is welcomed, and a packet of it arrives. -/
def greeted : List Life.Act :=
  [.act (.turn (.accept 0 [])), .act .tick, .act .tick, .act .tick, .act (.arrive (.stream 0)),
    .act (.arrive (.bytes 0 (putI32 5 ++ frame [7]))), .act (.arrive (.header 0)), .act (.arrive (.frame 0))]

/-- The packet's peer is looked up. -/
theorem named_by_sender_greeted : ∃ n, Machine.run step { life := .host true true } greeted = some n ∧
    packets n.life.events = [⟨2, 5, .reliable, [7]⟩] ∧
    ∀ remoteId id, n.life.peerEndpointId remoteId 2 = some id → id = remoteId 0 := by
  have hrun : ((Machine.run step { life := .host true true } greeted).map fun n => (n.came, n.life.registered)) =
      some ([(0, ⟨2, 5, .reliable, [7]⟩)], 1) := by decide +kernel
  obtain ⟨n, hn, he⟩ := Option.map_eq_some_iff.1 hrun
  simp only [Prod.mk.injEq] at he
  obtain ⟨hpackets, hnamed⟩ := named_by_sender (.inl ⟨true, true, rfl⟩) hn
  rw [he.1] at hpackets
  refine ⟨n, hn, hpackets, fun remoteId id hid => ?_⟩
  refine (hnamed 0 ⟨2, 5, .reliable, [7]⟩ (by rw [he.1]; simp) remoteId id hid).resolve_right ?_
  rw [he.2]
  decide

end Traced

/-! ## Lookups and membership -/

/-- Exactly the linked peers are announced. -/
def State.Members (s : State) : Prop := ∀ p, (s.connOf p).isSome = true ↔ p ∈ s.announced

namespace Tasks

/-- Once the handler under way is done, lookups answer for exactly the peers
whose last event is that they connected; a task that has left its loop has
nothing more to answer for. -/
def Agrees (t : Tasks) : Prop := t.ended = true ∨
  ∀ p, (t.settled.connections.lookup p).isSome = true ↔ (heard t.settled.events p).getLast? = some true

/-- A control message that the step takes leaves the announced peers as they
are. -/
def Unmoved (t : Tasks) : Action → Prop
  | .turn (.internal _) => ∀ c ∈ t.heads, c.update t.state.announced = t.state.announced
  | _ => True

instance : ∀ (t : Tasks) (a : Action), Decidable (t.Unmoved a)
  | t, .turn (.internal _) =>
    inferInstanceAs (Decidable (∀ c ∈ t.heads, c.update t.state.announced = t.state.announced))
  | _, .turn (.accept ..) | _, .turn (.send ..) | _, .turn (.disconnect _) | _, .turn (.close _)
  | _, .tick | _, .watch _ | _, .arrive _ => isTrue trivial

theorem Booked.agrees_iff {t : Tasks} (h : Booked t) : t.Agrees ↔ t.ended = true ∨ t.settled.Members := by
  have htold : Told t.settled.events t.settled.announced := Op.foldl_told h.told
  cases hended : t.ended with
  | true => simp [Agrees, hended]
  | false =>
    have hshared : t.settled.Shared := Op.foldl_shared (h.shared hended) (h.todo hended)
    simp only [Agrees, hended, Bool.false_eq_true, false_or, State.Members]
    exact forall_congr' fun p => by rw [hshared p, htold.last p]

theorem members_of_book {s t : State} (h : s.SameBook t) : t.Members ↔ s.Members := by
  rw [State.Members, State.Members, h.members.connOf, h.members.announced]

/-- What a handler of a host leaves, its members having been the announced
peers. -/
theorem members_handled {t t' : Tasks} {turn : Turn} (h : t.state.Members) (hended : t.ended = false)
    (hs : t.start turn = some t') : t'.ended = true ∨ t'.settled.Members ↔ t.Unmoved (.turn turn) := by
  rw [start_settled hs]
  cases turn with
  | accept c existing =>
    refine iff_of_true (.inr fun p => ?_) trivial
    rw [handled, State.welcome_connOf, State.welcome_announced, Finset.mem_insert, ← h p]
    split
    · next he => simp [he]
    · next he => simp [he]
  | send limits keys target channel mode data =>
    refine iff_of_true (.inr fun p => ?_) trivial
    have hsame := State.send_same t.state limits keys target channel mode data
    rw [handled, hsame.connOf, hsame.announced]
    exact h p
  | disconnect peer =>
    refine iff_of_true (.inr fun p => ?_) trivial
    have hsame := State.dropLink_same t.state peer
    rw [handled, hsame.connOf, hsame.announced]
    exact h p
  | close drained =>
    obtain rfl := Option.some.inj hs
    exact iff_of_true (.inl rfl) trivial
  | internal others =>
    simp only [start] at hs
    split at hs
    · simp at hs
    · next c rest hint =>
      have hopen : t'.ended = false := by rw [← Option.some.inj hs]; exact hended
      have hheads : t.heads = some c := by rw [heads, hint]
      rw [handled_control hint, hopen, Unmoved, hheads]
      simp only [Bool.false_eq_true, false_or, Option.mem_def, Option.some.injEq, forall_eq']
      constructor
      · intro hmembers
        refine Finset.ext fun p => ?_
        rw [← State.apply_announced, ← hmembers p, (State.apply_wire t.state c).connOf]
        exact h p
      · intro hupdate p
        rw [State.apply_announced, hupdate, (State.apply_wire t.state c).connOf]
        exact h p
    · next peer rest hint =>
      rw [handled_lost hint]
      refine iff_of_true (.inr fun p => ?_) (by simp [Unmoved, heads, hint])
      by_cases hm : peer ∈ t.state.links
      · rw [State.lost_connOf, State.lost_announced others peer hm, Finset.mem_erase, ← h p]
        split
        · next he => simp [he]
        · next he => simp [he]
      · rw [State.lost_of_not_mem hm]
        exact h p

theorem agrees_step {t t' : Tasks} {a : Action} (h : Booked t) (hI : t.Agrees) (hs : step t a = some t') :
    t'.Agrees ↔ t.Unmoved a := by
  rw [(booked_step h hs).agrees_iff]
  rw [h.agrees_iff] at hI
  by_cases ha : ∃ turn, a = .turn turn
  · obtain ⟨turn, rfl⟩ := ha
    simp only [step] at hs
    split at hs
    next hg =>
      have hsettled : t.settled = t.state := by rw [settled, hg.1]; rfl
      rw [hg.2, hsettled] at hI
      exact members_handled (hI.resolve_left Bool.false_ne_true) hg.2 hs
    · simp at hs
  · have hnot : ∀ turn, a ≠ .turn turn := fun turn he => ha ⟨turn, he⟩
    obtain ⟨hbook, -, hended⟩ := other_settled hnot hs
    rw [hended, members_of_book hbook]
    refine iff_of_true hI ?_
    cases a with
    | turn turn => exact absurd rfl (hnot turn)
    | _ => trivial

/-- **Lookups follow membership.** A host's lookups answer for exactly the
peers that its events say are connected, at every moment of the run, if and
only if no control message that its task takes changes who is announced. A
client's lookups answer for the host alone, with the connection it joined by. -/
theorem lookups_exact {as : List Action} {t : Tasks} :
    (Machine.run step hosting as = some t →
      ((∀ bs u, bs <+: as → Machine.run step hosting bs = some u → u.Agrees) ↔ Machine.Along step Unmoved hosting as)) ∧
    ∀ c, Machine.run step (joined c) as = some t →
      ∀ p d, t.state.connections.lookup p = some d → p = hostId ∧ d = c := by
  constructor
  · intro h
    have hall := Machine.invariant_iff_along (I := fun t => t.Booked ∧ t.Agrees) (G := Unmoved)
      (fun s a s' hI hs => (and_iff_right (booked_step hI.1 hs)).trans (agrees_step hI.1 hI.2 hs)) h
      ⟨Traced.kept_hosting.1, .inr (by simp [settled, hosting, State.hosting, heard, Event.heard])⟩
    refine Iff.trans (forall₄_congr fun bs u hbs hu => ?_) hall
    exact (and_iff_right (Machine.run_invariant (fun _ _ _ => booked_step) hu Traced.kept_hosting.1)).symm
  · intro c h p d hd
    have hkept := Machine.run_invariant (I := fun t => t.Booked ∧ t.Numbered ∧ t.state.isHost = false ∧
        (c, hostId) ∈ t.state.readers) (fun s a s' hI hs => ⟨booked_step hI.1 hs, numbered_step hI.2.1 hs,
          (step_isHost hs).trans hI.2.2.1, (step_readers_grow hs).subset hI.2.2.2⟩) h
      ⟨(Traced.kept_joined c).1, (Traced.kept_joined c).2, rfl, List.mem_singleton_self _⟩
    obtain ⟨hbooked, hnumbered, hrole, hc⟩ := hkept
    have hlen : t.state.readers.length ≤ 1 :=
      (Op.foldl_readers_grow t.todo t.state).length_le.trans (hnumbered.client hrole)
    have hpos := List.length_pos_of_mem hc
    obtain ⟨x, hx⟩ : ∃ x, t.state.readers = [x] := List.length_eq_one_iff.1 (by omega)
    have hdp := hbooked.registered p d hd
    rw [hx, List.mem_singleton] at hc hdp
    obtain ⟨rfl, rfl⟩ := Prod.mk.inj (hdp.trans hc.symm)
    exact ⟨rfl, rfl⟩

/-- A client writes its host a message that only a host would send. -/
def forged : List Action := [.turn (.accept 0 []), .tick, .tick, .tick, .arrive (.stream 0),
  .arrive (.bytes 0 (putI32 controlChannel ++ frame (Control.peerJoined 9).encode)), .arrive (.header 0),
  .arrive (.frame 0), .turn (.internal []), .tick]

/-- Then the host has a peer that it cannot look up. -/
theorem lookups_exact_forged : ¬ ∀ bs u, bs <+: forged → Machine.run step hosting bs = some u → u.Agrees := by
  have hrun : ((Machine.run step hosting forged).map fun t => t.state.announced) = some {2, 9} := by decide +kernel
  obtain ⟨t, ht, -⟩ := Option.map_eq_some_iff.1 hrun
  rw [lookups_exact.1 ht]
  decide +kernel

end Tasks
end Gdiroh.Session
