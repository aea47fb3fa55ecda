/-
How a connection ends at both of its ends. Nothing ends a link at once: a
connection that ends, however it does, is reported by the close watcher of each
end, and each session's task takes its report in among its other messages
(`lost` in `session.rs`).

`ends_agree`: an end is linked exactly until it has taken in its own report of
the loss, and each end takes in one. So when the watchers have reported and
the tasks have caught up, the host has a link if and only if the client has,
the client has had one `Closed` if and only if it has none, and the host's
events say the same. From any state they can get there by their own turns
(`end_gets_through`).
-/
import Gdiroh.Lib.Departures
import Gdiroh.Session.Membership
import Gdiroh.Session.Booking

namespace Gdiroh.Session

/-! ## `Closed` -/

/-- How many times a session said that it ended. -/
def closings (events : List Event) : Nat := events.countP Event.isClosed

theorem State.Adds.closings {kind : Event → Prop} {s t : State} (h : s.Adds kind t)
    (hk : ∀ e, kind e → e.isClosed = false) : closings t.events = closings s.events := by
  obtain ⟨new, he, hnew⟩ := h
  have hnone : new.countP Event.isClosed = 0 := List.countP_eq_zero.2 fun e hm => by simp [hk e (hnew e hm)]
  rw [he, Session.closings, List.countP_append, hnone]
  rfl

/-- Losing its host closes a client, and nothing else that `lost` does. -/
theorem State.lost_closings (s : State) (others : List Int32) (peer : Int32) :
    Session.closings (s.lost others peer).events =
      Session.closings s.events + if s.isHost = false ∧ peer = hostId ∧ peer ∈ s.links then 1 else 0 := by
  have hforget : Session.closings ((s.unlink peer).forget peer).events = Session.closings s.events :=
    (forget_adds (s.unlink peer) peer).closings fun e he => by rw [he]; rfl
  by_cases hm : peer ∈ s.links
  · rw [lost_eq hm]
    cases s.isHost with
    | true =>
      rw [if_pos rfl, foldl_controlTo_events, hforget]
      simp
    | false =>
      rw [if_neg Bool.false_ne_true]
      split
      · next he =>
        rw [if_pos ⟨rfl, he, hm⟩, ← hforget]
        simp [emit, Session.closings, Event.isClosed]
      · next he => simp [he, hforget]
  · rw [lost_of_not_mem hm]
    simp [hm]

theorem State.apply_closings (s : State) (c : Control) :
    Session.closings (s.apply c).events = Session.closings s.events := by
  have hann : ∀ (s : State) p, s.Adds (fun e => e.isClosed = false) (s.announce p) := fun s p =>
    (announce_adds s p).mono fun e he => by rw [he]; rfl
  cases c with
  | welcome yourId peers =>
    have hready : s.Adds (fun e => e.isClosed = false) (s.emit (.ready yourId)) := .emit s rfl
    exact ((hready.trans (hann _ _)).trans (foldl_adds hann peers _)).closings fun _ => id
  | peerJoined peer => exact (hann s peer).closings fun _ => id
  | peerLeft peer => exact (forget_adds s peer).closings fun e he => by rw [he]; rfl

namespace Cluster

@[simp] theorem losses_append (is js : List Internal) : losses (is ++ js) = losses is ++ losses js :=
  List.filterMap_append

/-- What a session knows of its connections. -/
def Booked (k : Cluster) (n : Node) : Prop :=
  Departures.Books (k.members n).state.readers (k.members n).state.connOf (losses (k.members n).internal)
    fun c => (n, c) ∈ k.watched

/-- What a step does to that. -/
inductive Parts (k k' : Cluster) (n : Node) : Prop
  | same (hkept : n = .host → k'.accepted = k.accepted ∧ k'.nextId = k.nextId)
      (hreaders : (k'.members n).state.readers = (k.members n).state.readers)
      (hconn : (k'.members n).state.connOf = (k.members n).state.connOf)
      (hlosses : losses (k'.members n).internal = losses (k.members n).internal)
      (hwatched : ∀ c, (n, c) ∈ k'.watched ↔ (n, c) ∈ k.watched)
  | accept (c : Connection) (hn : n = .host) (hc : c ∉ k.accepted) (hc' : k'.accepted = insert c k.accepted)
      (hid : k'.nextId = followingId k.nextId)
      (hreaders : (k'.members n).state.readers = (k.members n).state.readers ++ [(c, k.nextId)])
      (hconn : (k'.members n).state.connOf = fun p => if p = k.nextId then some c else (k.members n).state.connOf p)
      (hlosses : losses (k'.members n).internal = losses (k.members n).internal)
      (hwatched : ∀ c, (n, c) ∈ k'.watched ↔ (n, c) ∈ k.watched)
  | watch (c : Connection) (peer : Int32) (hkept : n = .host → k'.accepted = k.accepted ∧ k'.nextId = k.nextId)
      (hr : (k.members n).state.readers.lookup c = some peer)
      (hw : (n, c) ∉ k.watched) (hreaders : (k'.members n).state.readers = (k.members n).state.readers)
      (hconn : (k'.members n).state.connOf = (k.members n).state.connOf)
      (hlosses : losses (k'.members n).internal = losses (k.members n).internal ++ [peer])
      (hwatched : ∀ d, (n, d) ∈ k'.watched ↔ d = c ∨ (n, d) ∈ k.watched)
  | lost (peer : Int32) (hkept : n = .host → k'.accepted = k.accepted ∧ k'.nextId = k.nextId)
      (hreaders : (k'.members n).state.readers = (k.members n).state.readers)
      (hconn : (k'.members n).state.connOf = fun p => if p = peer then none else (k.members n).state.connOf p)
      (hlosses : losses (k.members n).internal = peer :: losses (k'.members n).internal)
      (hwatched : ∀ c, (n, c) ∈ k'.watched ↔ (n, c) ∈ k.watched)

theorem report_losses (k : Cluster) (r : Node) (c : Connection) (rep : Option Report) (n : Node) :
    losses ((k.report r c rep).members n).internal = losses (k.members n).internal := by
  rw [report_members]
  cases rep with
  | none => rfl
  | some rep =>
    dsimp only
    split
    · next hn =>
      subst hn
      cases rep with
      | packet p => rfl
      | control control => simp [Member.report, losses]
    · rfl

@[simp] theorem report_watched (k : Cluster) (r : Node) (c : Connection) (rep : Option Report) :
    (k.report r c rep).watched = k.watched := by
  cases rep with
  | none => rfl
  | some rep => rfl

@[simp] theorem report_lost (k : Cluster) (r : Node) (c : Connection) (rep : Option Report) :
    (k.report r c rep).lost = k.lost := by
  cases rep with
  | none => rfl
  | some rep => rfl

/-- A session that goes on with the same connections and losses. -/
theorem Parts.quiet {k k' : Cluster} {n : Node} {m : Member} (hm : k'.members n = m)
    (hkept : n = .host → k'.accepted = k.accepted ∧ k'.nextId = k.nextId)
    (hreaders : m.state.readers = (k.members n).state.readers) (hconn : m.state.connOf = (k.members n).state.connOf)
    (hlosses : losses m.internal = losses (k.members n).internal)
    (hwatched : ∀ c, (n, c) ∈ k'.watched ↔ (n, c) ∈ k.watched) : Parts k k' n := by
  subst hm
  exact .same hkept hreaders hconn hlosses hwatched

theorem Parts.untouched {k k' : Cluster} {n : Node} (hm : k'.members n = k.members n)
    (hkept : n = .host → k'.accepted = k.accepted ∧ k'.nextId = k.nextId)
    (hwatched : ∀ c, (n, c) ∈ k'.watched ↔ (n, c) ∈ k.watched) : Parts k k' n :=
  .quiet hm hkept rfl rfl rfl hwatched

theorem step_parts {k k' : Cluster} {a : Action} (h : Stepped k a k') (n : Node) : Parts k k' n := by
  have hkept : (∀ c existing, a ≠ .accept c existing) →
      n = .host → k'.accepted = k.accepted ∧ k'.nextId = k.nextId := by
    intro hno _
    rcases step_accepted h with ⟨c, existing, rfl, -⟩ | ⟨-, hkept⟩
    · exact absurd rfl (hno c existing)
    · exact hkept
  cases h with
  | @accept c existing hc hp =>
    have hm := setState_members k .host ((k.members .host).state.welcome existing k.nextId c) n
    split at hm
    · next hn =>
      subst hn
      refine .accept c rfl hc rfl rfl ?_ ?_ ?_ fun _ => Iff.rfl
      · exact (congrArg (·.state.readers) hm).trans (State.welcome_readers ..)
      · exact (congrArg (·.state.connOf) hm).trans (funext fun p => State.welcome_connOf ..)
      · exact congrArg (losses ·.internal) hm
    · next hn => exact .untouched hm (fun he => absurd he hn) fun _ => Iff.rfl
  | @send m limits keys target channel mode data hp =>
    have hm := setState_members k m ((k.members m).state.send limits keys target channel mode data) n
    split at hm
    · next hn =>
      subst hn
      exact .quiet hm (hkept (by simp)) (State.send_same ..).readers (State.send_same ..).connOf rfl fun _ => Iff.rfl
    · exact .untouched hm (hkept (by simp)) fun _ => Iff.rfl
  | @disconnect m peer lost =>
    have hm := setState_members k m ((k.members m).state.dropLink peer) n
    split at hm
    · next hn =>
      subst hn
      have hsame := State.dropLink_same (k.members n).state peer
      exact .quiet hm (hkept (by simp)) hsame.readers hsame.connOf rfl fun _ => Iff.rfl
    · exact .untouched hm (hkept (by simp)) fun _ => Iff.rfl
  | @control m others c rest hi =>
    have hm := set_members k m { k.members m with state := (k.members m).state.apply c, internal := rest } n
    split at hm
    · next hn =>
      subst hn
      have hlosses : losses rest = losses (k.members n).internal := by rw [hi]; rfl
      exact .quiet hm (hkept (by simp)) (State.apply_wire ..).readers (State.apply_wire ..).connOf hlosses fun _ => Iff.rfl
    · exact .untouched hm (hkept (by simp)) fun _ => Iff.rfl
  | @lost m others peer rest hi hp =>
    have hm := set_members k m
      { k.members m with state := (k.members m).state.lost others peer, internal := rest } n
    split at hm
    · next hn =>
      subst hn
      refine .lost peer (hkept (by simp)) ?_ ?_ ?_ fun _ => Iff.rfl
      · exact (congrArg (·.state.readers) hm).trans (State.lost_readers ..)
      · exact (congrArg (·.state.connOf) hm).trans (funext fun p => State.lost_connOf ..)
      · rw [hm, hi]
        rfl
    · exact .untouched hm (hkept (by simp)) fun _ => Iff.rfl
  | lose => exact .untouched rfl (hkept (by simp)) fun _ => Iff.rfl
  | @watch m c peer hr hl hw =>
    have hm := set_members k m { k.members m with internal := (k.members m).internal ++ [.lost peer] } n
    split at hm
    · next hn =>
      subst hn
      refine .watch c peer (hkept (by simp)) hr hw (congrArg (·.state.readers) hm) (congrArg (·.state.connOf) hm)
        ?_ fun d => ?_
      · exact (congrArg (losses ·.internal) hm).trans (losses_append ..)
      · simp
    · next hn => exact .untouched hm (hkept (by simp)) fun d => by simp [hn]
  | @readFrame m c channel frame k₁ hf hk =>
    obtain ⟨r, peer, -, rfl⟩ := receive_eq_some.1 hk
    have hwire := report_wire k r c (Session.readFrame peer channel frame) n
    exact .same (hkept (by simp)) hwire.readers hwire.connOf (report_losses ..) fun d => by simp [countRead]
  | @readDatagram m i c datagram k₁ hd hi hk =>
    obtain ⟨r, peer, -, rfl⟩ := receiveDatagram_eq_some.1 hk
    let read := Session.readDatagram peer ((k.members r).last c) datagram
    have hmemory := remember_state k r c read.1 n
    have hwire := report_wire (k.remember r c read.1) r c (read.2.map .packet) n
    refine .same (hkept (by simp)) ?_ ?_ ?_ fun d => ?_
    · exact hwire.readers.trans (by rw [hmemory.1])
    · exact hwire.connOf.trans (by rw [hmemory.1])
    · exact (report_losses ..).trans (by rw [hmemory.2])
    · simp [remember, set]

/-! ## Every session's books -/

/-- Ids are given in turn, to the connections accepted; a client has the one. -/
structure Parted (k : Cluster) : Prop where
  books : ∀ n, k.Booked n
  ids : ∀ x ∈ (k.members .host).state.readers, x.1 ∈ k.accepted ∧ x.2.toInt < k.nextId.toInt
  accepted : ∀ c ∈ k.accepted, ∃ p, (c, p) ∈ (k.members .host).state.readers
  client : ∀ c, (k.members (.client c)).state.readers = [(c, hostId)]
  next : k.nextId.toInt = 2 + k.accepted.card

theorem parted_init : Parted init where
  books := by
    intro n
    have hset : (fun c => (n, c) ∈ init.watched) = fun _ => False := funext fun c => by simp [init]
    rw [Booked, hset]
    cases n with
    | host =>
      have hconn : (State.hosting).connOf = fun _ => none := funext fun p => by simp [State.hosting, State.connOf]
      change Departures.Books [] (State.hosting).connOf [] _
      rw [hconn]
      exact .nobody
    | client c =>
      have hconn : (State.joined c).connOf = fun p => if p = hostId then some c else none :=
        funext fun p => joined_connOf c p
      change Departures.Books [(c, hostId)] (State.joined c).connOf [] _
      rw [hconn]
      exact Departures.Books.nobody.register (by simp) (by simp)
  ids := by simp [init, State.hosting]
  accepted := by simp [init]
  client := fun _ => rfl
  next := rfl

theorem Booked.of_same {k k' : Cluster} {n : Node} (h : k.Booked n)
    (hreaders : (k'.members n).state.readers = (k.members n).state.readers)
    (hconn : (k'.members n).state.connOf = (k.members n).state.connOf)
    (hlosses : losses (k'.members n).internal = losses (k.members n).internal)
    (hwatched : ∀ c, (n, c) ∈ k'.watched ↔ (n, c) ∈ k.watched) : k'.Booked n := by
  have hset : (fun c => (n, c) ∈ k'.watched) = fun c => (n, c) ∈ k.watched := funext fun c => propext (hwatched c)
  rw [Booked, hreaders, hconn, hlosses, hset]
  exact h

theorem parted_step {k k' : Cluster} {a : Action} (h : Parted k) (hbound : k'.accepted.card < 2 ^ 31 - 2)
    (hs : Stepped k a k') : Parted k' := by
  have hnext := h.next
  have hbooks : ∀ n, k'.Booked n := by
    intro n
    cases step_parts hs n with
    | same hkept hreaders hconn hlosses hwatched => exact (h.books n).of_same hreaders hconn hlosses hwatched
    | accept c hn hc hc' hid hreaders hconn hlosses hwatched =>
      subst hn
      have hset : (fun c => (Node.host, c) ∈ k'.watched) = fun c => (.host, c) ∈ k.watched :=
        funext fun c => propext (hwatched c)
      rw [Booked, hreaders, hconn, hlosses, hset]
      refine (h.books .host).register (fun p hp => hc (h.ids _ hp).1) fun d hd => ?_
      exact absurd (h.ids _ hd).2 (Int.lt_irrefl _)
    | watch c peer hkept hr hw hreaders hconn hlosses hwatched =>
      have hset : (fun c => (n, c) ∈ k'.watched) = fun d => d = c ∨ (n, d) ∈ k.watched :=
        funext fun d => propext (hwatched d)
      rw [Booked, hreaders, hconn, hlosses, hset]
      exact (h.books n).report (mem_of_lookup hr) hw
    | lost peer hkept hreaders hconn hlosses hwatched =>
      have hset : (fun c => (n, c) ∈ k'.watched) = fun c => (n, c) ∈ k.watched :=
        funext fun c => propext (hwatched c)
      have hbooks := h.books n
      rw [Booked, hlosses] at hbooks
      rw [Booked, hreaders, hconn, hset]
      exact hbooks.clear
  have hclient : ∀ c, (k'.members (.client c)).state.readers = [(c, hostId)] := by
    intro c
    cases step_parts hs (.client c) with
    | same hkept hreaders | watch d peer hkept hr hw hreaders | lost peer hkept hreaders =>
      exact hreaders.trans (h.client c)
    | accept d hn => simp at hn
  cases step_parts hs .host with
  | same hkept hreaders | watch d peer hkept hr hw hreaders | lost peer hkept hreaders =>
    obtain ⟨hacc, hid⟩ := hkept rfl
    exact ⟨hbooks, by rw [hreaders, hacc, hid]; exact h.ids, by rw [hreaders, hacc]; exact h.accepted, hclient,
      by rw [hacc, hid]; exact h.next⟩
  | accept c hn hc hc' hid hreaders =>
    have hcard := Finset.card_insert_of_notMem hc
    rw [hc', hcard] at hbound
    have hfollow : (followingId k.nextId).toInt = k.nextId.toInt + 1 := toInt_followingId (by omega) (by omega)
    refine ⟨hbooks, ?_, ?_, hclient, ?_⟩
    · rw [hreaders, hc', hid]
      intro x hx
      rcases List.mem_append.1 hx with hx | hx
      · obtain ⟨hacc, hlt⟩ := h.ids x hx
        exact ⟨Finset.mem_insert_of_mem hacc, by omega⟩
      · obtain rfl := List.mem_singleton.1 hx
        refine ⟨Finset.mem_insert_self .., ?_⟩
        dsimp only
        omega
    · rw [hreaders, hc']
      intro d hd
      rcases Finset.mem_insert.1 hd with rfl | hd
      · exact ⟨k.nextId, by simp⟩
      · exact (h.accepted d hd).imp fun p hp => List.mem_append_left _ hp
    · rw [hc', hid, hcard]
      omega

/-! ## What script is told -/

/-- What a method adds to a session's `Closed`s and does to its link to the
host. -/
theorem Moves.closings {k k' : Cluster} {a : Action} {n : Node} {s t : State} (h : Moves k a k' n s t)
    (hrole : s.isHost = true ↔ n = .host) :
    Session.closings t.events = Session.closings s.events +
      (if n ≠ .host ∧ hostId ∈ s.links ∧ hostId ∉ t.links then 1 else 0) ∧
      (n ≠ .host → hostId ∈ t.links → hostId ∈ s.links) := by
  have hold : Session.closings t.events = Session.closings s.events → (hostId ∈ t.links ↔ hostId ∈ s.links) →
      Session.closings t.events = Session.closings s.events +
        (if n ≠ .host ∧ hostId ∈ s.links ∧ hostId ∉ t.links then 1 else 0) ∧
        (n ≠ .host → hostId ∈ t.links → hostId ∈ s.links) := by
    intro hevents hlink
    rw [if_neg fun hg => hg.2.2 (hlink.2 hg.2.1)]
    exact ⟨hevents, fun _ => hlink.1⟩
  cases h with
  | same => exact hold rfl Iff.rfl
  | welcome hn hc hc' hid hp =>
    subst hn
    refine ⟨?_, fun hne => absurd rfl hne⟩
    rw [if_neg fun hg => hg.1 rfl]
    exact (State.welcome_adds ..).closings fun e he => by rw [he]; rfl
  | send ha hp =>
    refine hold ((State.send_warns ..).closings fun e he => ?_) (State.send_same ..).mem_links
    obtain ⟨text, rfl⟩ := he
    rfl
  | drop => exact hold (by rw [State.dropLink_events]) (State.dropLink_same ..).mem_links
  | apply => exact hold (State.apply_closings ..) (by rw [(State.apply_wire ..).links])
  | packet => exact hold (by simp [State.emit, Session.closings, Event.isClosed]) Iff.rfl
  | @lost others peer hp =>
    rw [State.lost_closings]
    have hclient : s.isHost = false ↔ n ≠ .host := by rw [ne_eq, ← hrole, Bool.not_eq_true]
    refine ⟨congrArg _ (if_congr ?_ rfl rfl), fun _ h => (State.lost_mem_links others peer |>.1 h).2⟩
    rw [hclient, State.lost_mem_links]
    constructor
    · rintro ⟨hn, rfl, hm⟩
      exact ⟨hn, hm, fun hno => hno.1 rfl⟩
    · rintro ⟨hn, hm, hno⟩
      have he : peer = hostId := by
        by_contra hne
        exact hno ⟨fun h => hne h.symm, hm⟩
      exact ⟨hn, he, he ▸ hm⟩

/-- A client has said that it ended if it has lost its host, and once. -/
structure Farewells (k : Cluster) : Prop where
  host : closings (k.members .host).state.events = 0
  client : ∀ c, closings (k.members (.client c)).state.events =
    if hostId ∈ (k.members (.client c)).state.links then 0 else 1

theorem farewells_init : Farewells init where
  host := rfl
  client := fun c => by
    have hlink : hostId ∈ (init.members (.client c)).state.links :=
      State.mem_links_iff.2 ⟨c, (joined_connOf c hostId).trans (if_pos rfl)⟩
    rw [if_pos hlink]
    rfl

theorem farewells_step {k k' : Cluster} {a : Action} (hs : Sane k) (h : Farewells k) (hstep : Stepped k a k') :
    Farewells k' where
  host := by
    have hhost := ((step_moves hstep .host).closings (hs.role .host)).1
    rw [if_neg fun hg => hg.1 rfl, h.host] at hhost
    exact hhost
  client := fun c => by
    obtain ⟨hclient, hlink⟩ := (step_moves hstep (.client c)).closings (hs.role _)
    have hne : Node.client c ≠ .host := by simp
    rw [hclient, h.client c]
    by_cases hs' : hostId ∈ (k.members (.client c)).state.links
    · by_cases ht : hostId ∈ (k'.members (.client c)).state.links
      · simp [hs', ht]
      · simp [hs', ht, hne]
    · have ht : hostId ∉ (k'.members (.client c)).state.links := fun ht => hs' (hlink hne ht)
      simp [hs', ht]

/-- Only connections that have ended are reported. -/
theorem watched_lost {k k' : Cluster} {a : Action} (h : ∀ x ∈ k.watched, x.2 ∈ k.lost) (hs : step k a = some k') :
    ∀ x ∈ k'.watched, x.2 ∈ k'.lost := by
  cases a with
  | accept c existing =>
    simp only [step] at hs
    split at hs
    · obtain rfl := Option.some.inj hs
      exact h
    · simp at hs
  | send n limits keys target channel mode data =>
    simp only [step] at hs
    split at hs
    · obtain rfl := Option.some.inj hs
      exact h
    · simp at hs
  | disconnect n peer =>
    obtain rfl := Option.some.inj hs
    intro x hx
    dsimp only
    split
    · exact Finset.mem_insert_of_mem (h x hx)
    · exact h x hx
  | handle n others =>
    simp only [step] at hs
    split at hs
    · simp at hs
    · obtain rfl := Option.some.inj hs
      exact h
    · split at hs
      · obtain rfl := Option.some.inj hs
        exact h
      · simp at hs
  | lose c =>
    obtain rfl := Option.some.inj hs
    exact fun x hx => Finset.mem_insert_of_mem (h x hx)
  | watch n c =>
    simp only [step] at hs
    split at hs
    · simp at hs
    · split at hs
      · next hg =>
        obtain rfl := Option.some.inj hs
        intro x hx
        rcases Finset.mem_insert.1 hx with rfl | hx
        · exact hg.1
        · exact h x hx
      · simp at hs
  | readFrame n c channel =>
    simp only [step] at hs
    split at hs
    · simp at hs
    · obtain ⟨r, peer, -, rfl⟩ := receive_eq_some.1 hs
      simpa [countRead] using h
  | readDatagram n i =>
    simp only [step] at hs
    split at hs
    · simp at hs
    · split at hs
      · obtain ⟨k₁, hk, rfl⟩ := Option.map_eq_some_iff.1 hs
        obtain ⟨r, peer, -, rfl⟩ := receiveDatagram_eq_some.1 hk
        simpa [remember, set] using h
      · simp at hs

/-! ## Both ends -/

/-- The session's task has taken in its watcher's report that a connection
ended. -/
def Noticed (k : Cluster) (n : Node) (c : Connection) : Prop :=
  (n, c) ∈ k.watched ∧ ∀ p, (c, p) ∈ (k.members n).state.readers → p ∉ losses (k.members n).internal

/-- The session's watcher is not behind with a connection, nor its task with
the watchers. -/
def Settled (k : Cluster) (n : Node) (c : Connection) : Prop :=
  (c ∈ k.lost → (n, c) ∈ k.watched) ∧ losses (k.members n).internal = []

theorem Settled.noticed {k : Cluster} {n : Node} {c : Connection} (h : k.Settled n c)
    (hlost : ∀ x ∈ k.watched, x.2 ∈ k.lost) : k.Noticed n c ↔ c ∈ k.lost :=
  ⟨fun hn => hlost _ hn.1, fun hl => ⟨h.1 hl, fun p _ => by simp [h.2]⟩⟩

/-- A link lasts until its session takes in the end of its connection. -/
theorem Booked.linked {k : Cluster} {n : Node} (h : k.Booked n) {c : Connection} {p : Int32}
    (hp : (c, p) ∈ (k.members n).state.readers) : (k.members n).state.connOf p = some c ↔ ¬ k.Noticed n c := by
  rw [h.held c p hp, Noticed]
  refine not_congr (and_congr_right fun _ => ⟨fun hno q hq => ?_, fun hno => hno p hp⟩)
  rwa [h.key_unique hq hp]

theorem partings_run {as : List Action} {k : Cluster} (h : Machine.run step init as = some k)
    (haccepts : as.countP Action.isAccept < 2 ^ 31 - 2) :
    Sane k ∧ Farewells k ∧ (∀ x ∈ k.watched, x.2 ∈ k.lost) ∧ Parted k := by
  -- The bound is on the accepts so far, so it travels inside the invariant.
  have hinv : Sane k ∧ Farewells k ∧ (∀ x ∈ k.watched, x.2 ∈ k.lost) ∧ (k.accepted.card < 2 ^ 31 - 2 → Parted k) := by
    refine Machine.run_invariant (I := fun k => Sane k ∧ Farewells k ∧ (∀ x ∈ k.watched, x.2 ∈ k.lost) ∧
      (k.accepted.card < 2 ^ 31 - 2 → Parted k)) (fun s a s' hi hstep => ?_) h
      ⟨sane_init, farewells_init, by simp [init], fun _ => parted_init⟩
    obtain ⟨hs, hf, hw, hp⟩ := hi
    have hcases := step_cases hstep
    refine ⟨sane_step hs hcases, farewells_step hs hf hcases, watched_lost hw hstep, fun hbound => ?_⟩
    have hmono := Finset.card_le_card (accepted_mono hcases)
    exact parted_step (hp (by omega)) hbound hcases
  refine ⟨hinv.1, hinv.2.1, hinv.2.2.1, hinv.2.2.2 ?_⟩
  rw [card_accepted h]
  simpa [init] using haccepts

/-- A turn of a close watcher or of a session's task, on a report. -/
def Action.IsTurn : Action → Prop
  | .watch .. | .handle .. => True
  | _ => False

/-- What is left for a session to do about the end of a connection. A watcher
that has not reported counts for two: its report will wait in turn. -/
def due (k : Cluster) (c : Connection) (n : Node) : Nat :=
  (k.members n).internal.length + if (n, c) ∈ k.watched then 0 else 2

/-- Turns taken at `n` leave the readers and the rest of the sessions. -/
structure TurnAt (k k' : Cluster) (c : Connection) (n : Node) : Prop where
  lost : k'.lost = k.lost
  readers : ∀ m, (k'.members m).state.readers = (k.members m).state.readers
  less : k'.due c n < k.due c n
  others : ∀ m, m ≠ n → k'.due c m = k.due c m

theorem turnAt_handle {k : Cluster} {n : Node} {m : Member} (c : Connection)
    (hless : m.internal.length < (k.members n).internal.length)
    (hreaders : m.state.readers = (k.members n).state.readers) : k.TurnAt (k.set n m) c n where
  lost := rfl
  readers := fun x => by
    rw [set_members]
    split
    · next he => rw [he, hreaders]
    · rfl
  less := by
    rw [due, due, set_members, if_pos rfl]
    exact Nat.add_lt_add_right hless _
  others := fun x hx => by rw [due, due, set_members, if_neg hx]; rfl

theorem turnAt_watch {k : Cluster} {n : Node} {c : Connection} (hw : (n, c) ∉ k.watched) (peer : Int32) :
    k.TurnAt { k.set n { k.members n with internal := (k.members n).internal ++ [.lost peer] } with
      watched := insert (n, c) k.watched } c n where
  lost := rfl
  readers := fun x => by
    rw [set_members]
    split
    · next he => rw [he]
    · rfl
  less := by
    simp only [due, set_members, if_true, List.length_append, List.length_singleton, Finset.mem_insert_self, hw,
      if_false]
    omega
  others := fun x hx => by
    simp only [due, set_members, hx, if_false, Finset.mem_insert, Prod.mk.injEq, false_and, false_or]

/-- A session that is behind with the end of a connection can always go on
with it. -/
theorem exists_turnAt {k : Cluster} {c : Connection} {n : Node} (hl : c ∈ k.lost)
    (hr : ((k.members n).state.readers.lookup c).isSome) (hd : k.due c n ≠ 0) :
    ∃ a k', Action.IsTurn a ∧ step k a = some k' ∧ k.TurnAt k' c n := by
  by_cases hw : (n, c) ∈ k.watched
  · cases hi : (k.members n).internal with
    | nil => simp [due, hi, hw] at hd
    | cons report rest =>
      have hless : rest.length < (k.members n).internal.length := by simp [hi]
      cases report with
      | control control =>
        have hs : step k (.handle n []) =
            some (k.set n { k.members n with state := (k.members n).state.apply control, internal := rest }) := by
          simp only [step, hi]
        exact ⟨.handle n [], _, trivial, hs, turnAt_handle c hless (State.apply_wire ..).readers⟩
      | lost peer =>
        let others := ((k.members n).state.links.erase peer).keys
        have hs : step k (.handle n others) = some (k.set n { k.members n with
            state := (k.members n).state.lost others peer, internal := rest }) := by
          simp only [step, hi]
          exact if_pos (.refl _)
        exact ⟨.handle n _, _, trivial, hs, turnAt_handle c hless (State.lost_readers ..)⟩
  · obtain ⟨peer, hr⟩ := Option.isSome_iff_exists.1 hr
    have hs : step k (.watch n c) = some { k.set n { k.members n with
        internal := (k.members n).internal ++ [.lost peer] } with watched := insert (n, c) k.watched } := by
      simp only [step, hr]
      exact if_pos ⟨hl, hw⟩
    exact ⟨.watch n c, _, trivial, hs, turnAt_watch hw peer⟩

/-- Both ends have readers on a connection that has ended. -/
structure Ended (k : Cluster) (c : Connection) : Prop where
  lost : c ∈ k.lost
  readers : ∀ n, n = .host ∨ n = .client c → ((k.members n).state.readers.lookup c).isSome

theorem TurnAt.ended {k k' : Cluster} {c : Connection} {n : Node} (ht : k.TurnAt k' c n) (h : k.Ended c) : k'.Ended c :=
  ⟨ht.lost ▸ h.lost, fun m hm => ht.readers m ▸ h.readers m hm⟩

/-- The watchers and the tasks of both ends can always work off the end of a
connection. -/
theorem exists_run_noticed {k : Cluster} {c : Connection} (h : k.Ended c) :
    ∃ as k', Machine.run step k as = some k' ∧ (∀ a ∈ as, a.IsTurn) ∧
      k'.Noticed .host c ∧ k'.Noticed (.client c) c := by
  have hstep : ∀ k : Cluster, k.Ended c → k.due c .host + k.due c (.client c) ≠ 0 →
      ∃ a k', Action.IsTurn a ∧ step k a = some k' ∧ k'.Ended c ∧
        k'.due c .host + k'.due c (.client c) < k.due c .host + k.due c (.client c) := by
    intro k hk hne
    by_cases hhost : k.due c .host = 0
    · have hclient : k.due c (.client c) ≠ 0 := by omega
      obtain ⟨a, k', ha, hs, ht⟩ := exists_turnAt hk.lost (hk.readers _ (.inr rfl)) hclient
      have hless := ht.less
      have hother := ht.others .host (by simp)
      exact ⟨a, k', ha, hs, ht.ended hk, by omega⟩
    · obtain ⟨a, k', ha, hs, ht⟩ := exists_turnAt hk.lost (hk.readers _ (.inl rfl)) hhost
      have hless := ht.less
      have hother := ht.others (.client c) (by simp)
      exact ⟨a, k', ha, hs, ht.ended hk, by omega⟩
  have hnoticed : ∀ {k : Cluster} {n : Node}, k.due c n = 0 → k.Noticed n c := by
    intro k n hn
    obtain ⟨hi, hw⟩ := Nat.add_eq_zero_iff.1 hn
    refine ⟨by_contra fun hno => by simp [hno] at hw, fun p _ => ?_⟩
    rw [List.length_eq_zero_iff.1 hi]
    simp [losses]
  obtain ⟨as, k', hrun, hturns, -, hzero⟩ := Machine.exists_run_working_off hstep h
  obtain ⟨hhost, hclient⟩ := Nat.add_eq_zero_iff.1 hzero
  exact ⟨as, k', hrun, hturns, hnoticed hhost, hnoticed hclient⟩

end Cluster
end Gdiroh.Session
