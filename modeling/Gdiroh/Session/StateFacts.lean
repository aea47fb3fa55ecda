/-
What each method of the session's state does, said once: who is linked to
whom (`connOf`), what the main thread was told (`Told`), and what reached
the stream writers (`handed`). Everything proved about sessions goes
through these and unfolds no method.
-/
import Gdiroh.Session.State
import Mathlib.Algebra.Group.Int.Defs
import Mathlib.Data.Finset.Insert
import Mathlib.Data.List.Chain

namespace Gdiroh.Session
namespace State

/-- The connection behind a linked peer. -/
def connOf (s : State) (peer : Int32) : Option Connection := (s.links.lookup peer).map (·.connection)

theorem connOf_eq_some {s : State} {peer : Int32} {c : Connection} :
    s.connOf peer = some c ↔ ∃ link, s.links.lookup peer = some link ∧ link.connection = c := by
  simp [connOf]

theorem mem_links_iff {s : State} {peer : Int32} : peer ∈ s.links ↔ ∃ c, s.connOf peer = some c := by
  simp [← AList.lookup_isSome, connOf, Option.isSome_iff_exists]

theorem lookup_insert_link {s : State} {peer p : Int32} {link : Link} :
    (s.links.insert peer link).lookup p = if p = peer then some link else s.links.lookup p := by
  by_cases h : p = peer
  · subst h; simp
  · simp [h, AList.lookup_insert_ne]

/-! ## What a write leaves alone -/

/-- The same peers on the same connections, the same announcements and the
same reader tasks. -/
structure SameMembers (s t : State) : Prop where
  isHost : t.isHost = s.isHost
  announced : t.announced = s.announced
  connOf : t.connOf = s.connOf
  readers : t.readers = s.readers

theorem SameMembers.refl (s : State) : SameMembers s s := ⟨rfl, rfl, rfl, rfl⟩

theorem SameMembers.trans {s t u : State} (h₁ : SameMembers s t) (h₂ : SameMembers t u) : SameMembers s u :=
  ⟨h₂.isHost.trans h₁.isHost, h₂.announced.trans h₁.announced, h₂.connOf.trans h₁.connOf,
    h₂.readers.trans h₁.readers⟩

theorem SameMembers.mem_links {s t : State} (h : SameMembers s t) {peer : Int32} :
    peer ∈ t.links ↔ peer ∈ s.links := by
  simp [mem_links_iff, h.connOf]

/-- A link is changed in place: its connection stays. -/
theorem connOf_insert_link {s : State} {peer : Int32} {link new : Link} (h : s.links.lookup peer = some link)
    (hc : new.connection = link.connection) : { s with links := s.links.insert peer new }.connOf = s.connOf := by
  funext p
  simp only [connOf, lookup_insert_link]
  split
  · next hp => subst hp; simp [h, hc]
  · rfl

theorem writeReliable_same (s : State) (peer channel : Int32) (data : Bytes) :
    SameMembers s (s.writeReliable peer channel data) := by
  unfold writeReliable
  split
  · exact .refl s
  next link hl =>
  split
  · exact ⟨rfl, rfl, rfl, rfl⟩
  · exact ⟨rfl, rfl, connOf_insert_link hl rfl, rfl⟩

@[simp] theorem writeReliable_events (s : State) (peer channel : Int32) (data : Bytes) :
    (s.writeReliable peer channel data).events = s.events := by
  unfold writeReliable
  split
  · rfl
  split <;> rfl

@[simp] theorem writeReliable_datagrams (s : State) (peer channel : Int32) (data : Bytes) :
    (s.writeReliable peer channel data).datagrams = s.datagrams := by
  unfold writeReliable
  split
  · rfl
  split <;> rfl

@[simp] theorem count_connection (link : Link) (channel : Int32) (mode : Mode) :
    (link.count channel mode).connection = link.connection := by
  unfold Link.count; split <;> rfl

@[simp] theorem count_reliable (link : Link) (channel : Int32) (mode : Mode) :
    (link.count channel mode).reliable = link.reliable := by
  unfold Link.count; split <;> rfl

theorem warnOversize_same {s : State} {peer : Int32} (channel : Int32) (data : Bytes) (limit : Nat)
    {link new : Link} (hl : s.links.lookup peer = some link) (hc : new.connection = link.connection) :
    SameMembers s (s.warnOversize peer channel data limit new) := by
  unfold warnOversize
  split
  · exact ⟨rfl, rfl, connOf_insert_link hl hc, rfl⟩
  · exact ⟨rfl, rfl, connOf_insert_link hl hc, rfl⟩

theorem writeDatagram_same (s : State) (limits : Limits) (peer channel : Int32) (mode : Mode) (data : Bytes) :
    SameMembers s (s.writeDatagram limits peer channel mode data) := by
  unfold writeDatagram
  split
  · exact .refl s
  next link hl =>
  dsimp only
  split
  · exact (warnOversize_same channel data _ hl (count_connection ..)).trans (writeReliable_same ..)
  · exact ⟨rfl, rfl, connOf_insert_link hl (count_connection ..), rfl⟩

theorem sendOne_same (s : State) (limits : Limits) (peer channel : Int32) (mode : Mode) (data : Bytes) :
    SameMembers s (s.sendOne limits peer channel mode data) := by
  unfold sendOne
  split
  · exact writeReliable_same ..
  · exact writeDatagram_same ..
  · exact writeDatagram_same ..

/-- Walking a list of peers keeps what each step keeps. -/
theorem foldl_same {f : State → Int32 → State} (hf : ∀ s p, SameMembers s (f s p)) (peers : List Int32)
    (s : State) : SameMembers s (peers.foldl f s) := by
  induction peers generalizing s with
  | nil => exact .refl s
  | cons p ps ih => exact (hf s p).trans (ih _)

theorem send_same (s : State) (limits : Limits) (keys : List Int32) (target channel : Int32) (mode : Mode)
    (data : Bytes) : SameMembers s (s.send limits keys target channel mode data) := by
  unfold send
  split
  · exact foldl_same (fun s p => sendOne_same s limits p channel mode data) _ s
  · exact sendOne_same ..

theorem controlTo_same (s : State) (peer : Int32) (c : Control) : SameMembers s (s.controlTo peer c) :=
  writeReliable_same ..

theorem dropLink_same (s : State) (peer : Int32) : SameMembers s (s.dropLink peer) := by
  unfold dropLink
  split
  · exact .refl s
  · exact ⟨rfl, rfl, rfl, rfl⟩

/-- What a method emits is all of one kind. -/
def Adds (kind : Event → Prop) (s t : State) : Prop := ∃ new, t.events = s.events ++ new ∧ ∀ e ∈ new, kind e

theorem Adds.of_eq {kind : Event → Prop} {s t : State} (h : t.events = s.events) : Adds kind s t :=
  ⟨[], by simp [h], by simp⟩

theorem Adds.emit {kind : Event → Prop} (s : State) {e : Event} (h : kind e) : Adds kind s (s.emit e) :=
  ⟨[e], rfl, by simpa using h⟩

theorem Adds.trans {kind : Event → Prop} {s t u : State} (h₁ : Adds kind s t) (h₂ : Adds kind t u) :
    Adds kind s u := by
  obtain ⟨new₁, he₁, hk₁⟩ := h₁
  obtain ⟨new₂, he₂, hk₂⟩ := h₂
  refine ⟨new₁ ++ new₂, by simp [he₂, he₁], fun e he => ?_⟩
  rcases List.mem_append.1 he with he | he
  · exact hk₁ e he
  · exact hk₂ e he

theorem Adds.mono {kind kind' : Event → Prop} {s t : State} (h : Adds kind s t) (hk : ∀ e, kind e → kind' e) :
    Adds kind' s t := by
  obtain ⟨new, he, hn⟩ := h
  exact ⟨new, he, fun e hm => hk e (hn e hm)⟩

theorem foldl_adds {kind : Event → Prop} {f : State → Int32 → State} (hf : ∀ s p, Adds kind s (f s p))
    (peers : List Int32) (s : State) : Adds kind s (peers.foldl f s) := by
  induction peers generalizing s with
  | nil => exact .of_eq rfl
  | cons p ps ih => exact (hf s p).trans (ih _)

/-- A warning is all a write can have to say. -/
def Warns (e : Event) : Prop := ∃ text, e = .warning text

theorem writeDatagram_warns (s : State) (limits : Limits) (peer channel : Int32) (mode : Mode) (data : Bytes) :
    Adds Warns s (s.writeDatagram limits peer channel mode data) := by
  unfold writeDatagram
  split
  · exact .of_eq rfl
  dsimp only
  split
  · refine Adds.trans ?_ (.of_eq (writeReliable_events ..))
    unfold warnOversize
    split
    · exact .of_eq rfl
    · exact Adds.emit { s with links := _ } ⟨_, rfl⟩
  · exact .of_eq rfl

theorem sendOne_warns (s : State) (limits : Limits) (peer channel : Int32) (mode : Mode) (data : Bytes) :
    Adds Warns s (s.sendOne limits peer channel mode data) := by
  unfold sendOne
  split
  · exact .of_eq (writeReliable_events ..)
  · exact writeDatagram_warns ..
  · exact writeDatagram_warns ..

theorem send_warns (s : State) (limits : Limits) (keys : List Int32) (target channel : Int32) (mode : Mode)
    (data : Bytes) : Adds Warns s (s.send limits keys target channel mode data) := by
  unfold send
  split
  · exact foldl_adds (fun s p => sendOne_warns s limits p channel mode data) _ s
  · exact sendOne_warns ..

theorem announce_adds (s : State) (peer : Int32) : Adds (· = .peerConnected peer) s (s.announce peer) := by
  unfold announce
  split
  · exact .of_eq rfl
  · exact Adds.emit { s with announced := _ } rfl

theorem forget_adds (s : State) (peer : Int32) : Adds (· = .peerDisconnected peer) s (s.forget peer) := by
  unfold forget
  split
  · exact Adds.emit { s with announced := _ } rfl
  · exact .of_eq rfl

theorem foldl_controlTo_events (peers : List Int32) (c : Control) (s : State) :
    (peers.foldl (fun s p => s.controlTo p c) s).events = s.events := by
  induction peers generalizing s with
  | nil => rfl
  | cons p ps ih =>
    rw [List.foldl_cons, ih]
    exact writeReliable_events ..

theorem dropLink_events (s : State) (peer : Int32) : (s.dropLink peer).events = s.events := by
  unfold dropLink
  split <;> rfl

/-! ## What an announcement leaves alone -/

/-- The same links and the same traffic: only announcements and events
differ. -/
structure SameWire (s t : State) : Prop where
  isHost : t.isHost = s.isHost
  links : t.links = s.links
  readers : t.readers = s.readers
  writers : t.writers = s.writers
  queued : t.queued = s.queued
  datagrams : t.datagrams = s.datagrams

theorem SameWire.refl (s : State) : SameWire s s := ⟨rfl, rfl, rfl, rfl, rfl, rfl⟩

theorem SameWire.trans {s t u : State} (h₁ : SameWire s t) (h₂ : SameWire t u) : SameWire s u :=
  ⟨h₂.isHost.trans h₁.isHost, h₂.links.trans h₁.links, h₂.readers.trans h₁.readers,
    h₂.writers.trans h₁.writers, h₂.queued.trans h₁.queued, h₂.datagrams.trans h₁.datagrams⟩

theorem SameWire.connOf {s t : State} (h : SameWire s t) : t.connOf = s.connOf := by
  funext p
  simp [State.connOf, h.links]

theorem emit_wire (s : State) (e : Event) : SameWire s (s.emit e) := ⟨rfl, rfl, rfl, rfl, rfl, rfl⟩

theorem dropLink_wire (s : State) (peer : Int32) : SameWire s (s.dropLink peer) := by
  unfold dropLink
  split
  · exact .refl s
  · exact ⟨rfl, rfl, rfl, rfl, rfl, rfl⟩

theorem announce_wire (s : State) (peer : Int32) : SameWire s (s.announce peer) := by
  unfold announce
  split
  · exact .refl s
  · exact ⟨rfl, rfl, rfl, rfl, rfl, rfl⟩

theorem forget_wire (s : State) (peer : Int32) : SameWire s (s.forget peer) := by
  unfold forget
  split
  · exact ⟨rfl, rfl, rfl, rfl, rfl, rfl⟩
  · exact .refl s

theorem foldl_announce_wire (peers : List Int32) (s : State) : SameWire s (peers.foldl announce s) := by
  induction peers generalizing s with
  | nil => exact .refl s
  | cons p ps ih => exact (announce_wire s p).trans (ih _)

theorem apply_wire (s : State) (c : Control) : SameWire s (s.apply c) := by
  cases c with
  | welcome yourId peers =>
    exact ((emit_wire s _).trans (announce_wire _ _)).trans (foldl_announce_wire peers _)
  | peerJoined id => exact announce_wire s id
  | peerLeft id => exact forget_wire s id

/-! ## Who is announced -/

@[simp] theorem announce_announced (s : State) (peer : Int32) :
    (s.announce peer).announced = insert peer s.announced := by
  unfold announce
  split
  · next h => rw [Finset.insert_eq_of_mem h]
  · rfl

@[simp] theorem forget_announced (s : State) (peer : Int32) :
    (s.forget peer).announced = s.announced.erase peer := by
  unfold forget
  split
  · rfl
  · next h => rw [Finset.erase_eq_of_notMem h]

@[simp] theorem emit_announced (s : State) (e : Event) : (s.emit e).announced = s.announced := rfl

theorem foldl_announce_announced (peers : List Int32) (s : State) :
    (peers.foldl announce s).announced = s.announced ∪ peers.toFinset := by
  induction peers generalizing s with
  | nil => simp
  | cons p ps ih =>
    rw [List.foldl_cons, ih, announce_announced]
    ext q
    simp only [Finset.mem_union, Finset.mem_insert, List.toFinset_cons]
    tauto

end State

/-- The announced set after a message. -/
def Control.update : Control → Finset Int32 → Finset Int32
  | .welcome _ peers, told => insert hostId told ∪ peers.toFinset
  | .peerJoined id, told => insert id told
  | .peerLeft id, told => told.erase id

namespace State

theorem apply_announced (s : State) (c : Control) : (s.apply c).announced = c.update s.announced := by
  cases c with
  | welcome yourId peers => simp [apply, foldl_announce_announced, Control.update]
  | peerJoined id => simp [apply, Control.update]
  | peerLeft id => simp [apply, Control.update]

/-! ## What the main thread was told -/

end State

/-- What an event says about a peer: that it connected, or that it left. -/
def Event.heard (peer : Int32) : Event → Option Bool
  | .peerConnected p => if p = peer then some true else none
  | .peerDisconnected p => if p = peer then some false else none
  | _ => none

/-- Everything said about a peer, oldest first. -/
def heard (events : List Event) (peer : Int32) : List Bool := events.filterMap (Event.heard peer)

/-- A peer's events alternate from `PeerConnected` on, and the last one says
whether it is announced. -/
structure Told (events : List Event) (announced : Finset Int32) : Prop where
  alternate : ∀ p, (heard events p).IsChain (· ≠ ·)
  first : ∀ p, (heard events p).head? ≠ some false
  last : ∀ p, (heard events p).getLast? = some true ↔ p ∈ announced

theorem Told.nil : Told [] ∅ := by
  constructor <;> simp [heard]

/-- An event about nobody. -/
def Event.Silent (e : Event) : Prop := ∀ p, e.heard p = none

theorem heard_append (events new : List Event) (p : Int32) :
    heard (events ++ new) p = heard events p ++ heard new p := by
  simp [heard]

theorem heard_silent {new : List Event} (h : ∀ e ∈ new, e.Silent) (p : Int32) : heard new p = [] := by
  simp only [heard, List.filterMap_eq_nil_iff]
  exact fun e he => h e he p

theorem Told.silent {events new : List Event} {announced : Finset Int32} (h : Told events announced)
    (hnew : ∀ e ∈ new, e.Silent) : Told (events ++ new) announced := by
  have heq : ∀ p, heard (events ++ new) p = heard events p := fun p => by
    rw [heard_append, heard_silent hnew, List.append_nil]
  exact ⟨fun p => heq p ▸ h.alternate p, fun p => heq p ▸ h.first p, fun p => heq p ▸ h.last p⟩

/-- The one step by which a peer's events grow: by the opposite of the last. -/
theorem Told.flip {events : List Event} {announced announced' : Finset Int32} (h : Told events announced)
    {e : Event} {peer : Int32} {b : Bool} (he : ∀ p, e.heard p = if peer = p then some b else none)
    (hb : peer ∈ announced ↔ b = false) (hnew : ∀ p, p ∈ announced' ↔ if peer = p then b = true else p ∈ announced) :
    Told (events ++ [e]) announced' := by
  have heard_e : ∀ p, heard (events ++ [e]) p = heard events p ++ (if peer = p then [b] else []) := fun p => by
    rw [heard_append]
    by_cases hp : peer = p <;> simp [heard, he, hp]
  refine ⟨fun p => ?_, fun p => ?_, fun p => ?_⟩
  · rw [heard_e]
    split
    · next hp =>
      subst hp
      refine List.isChain_append.2 ⟨h.alternate peer, by simp, fun x hx y hy => ?_⟩
      simp only [List.head?_cons, Option.mem_def, Option.some.injEq] at hx hy
      subst hy
      have hlast := h.last peer
      rw [hx] at hlast
      cases x <;> cases b <;> simp_all
    · simpa using h.alternate p
  · rw [heard_e]
    split
    · next hp =>
      subst hp
      cases hl : heard events peer with
      | nil =>
        -- Never heard of, so not announced, so the event is a connection.
        have hlast := h.last peer
        rw [hl] at hlast
        cases b <;> simp_all
      | cons x xs =>
        have := h.first peer
        rw [hl] at this
        simpa using this
    · simpa using h.first p
  · rw [heard_e, hnew]
    split
    · simp
    · simpa using h.last p

namespace State

theorem announce_told {s : State} (h : Told s.events s.announced) (peer : Int32) :
    Told (s.announce peer).events (s.announce peer).announced := by
  rw [announce_announced]
  unfold announce
  split
  · next hm => rw [Finset.insert_eq_of_mem hm]; exact h
  · next hm =>
    have hheard : ∀ p, (Event.peerConnected peer).heard p = if peer = p then some true else none := fun _ => rfl
    refine h.flip hheard (by simp [hm]) fun p => ?_
    by_cases hp : peer = p
    · simp [hp]
    · simp [hp, Ne.symm hp, Finset.mem_insert]

theorem forget_told {s : State} (h : Told s.events s.announced) (peer : Int32) :
    Told (s.forget peer).events (s.forget peer).announced := by
  rw [forget_announced]
  unfold forget
  split
  · next hm =>
    have hheard : ∀ p, (Event.peerDisconnected peer).heard p = if peer = p then some false else none := fun _ => rfl
    refine h.flip hheard (by simp [hm]) fun p => ?_
    by_cases hp : peer = p
    · simp [hp]
    · simp [hp, Ne.symm hp]
  · next hm => rw [Finset.erase_eq_of_notMem hm]; exact h

theorem foldl_announce_told {s : State} (h : Told s.events s.announced) (peers : List Int32) :
    Told (peers.foldl announce s).events (peers.foldl announce s).announced := by
  induction peers generalizing s with
  | nil => exact h
  | cons p ps ih => exact ih (announce_told h p)

theorem apply_told {s : State} (h : Told s.events s.announced) (c : Control) :
    Told (s.apply c).events (s.apply c).announced := by
  cases c with
  | welcome yourId peers =>
    have hready : Told (s.emit (.ready yourId)).events (s.emit (.ready yourId)).announced :=
      h.silent (show ∀ e ∈ [Event.ready yourId], e.Silent by simp [Event.Silent, Event.heard])
    exact foldl_announce_told (announce_told hready hostId) peers
  | peerJoined id => exact announce_told h id
  | peerLeft id => exact forget_told h id

theorem Adds.told {s t : State} (h : Adds Warns s t) (ha : t.announced = s.announced)
    (hs : Told s.events s.announced) : Told t.events t.announced := by
  obtain ⟨new, he, hw⟩ := h
  rw [he, ha]
  refine hs.silent fun e hm => ?_
  obtain ⟨text, rfl⟩ := hw e hm
  exact fun p => rfl

end State

/-! ## Control messages without effect -/

/-- The message is about a peer already announced, or gone already. -/
def Control.Inert (announced : Finset Int32) : Control → Prop
  | .welcome .. => False
  | .peerJoined id => id ∈ announced
  | .peerLeft id => id ∉ announced

/-- An inert message changes nothing at all. -/
theorem State.apply_inert {s : State} {c : Control} (h : c.Inert s.announced) : s.apply c = s := by
  cases c with
  | welcome yourId peers => exact absurd h id
  | peerJoined id =>
    have h : id ∈ s.announced := h
    simp [apply, announce, h]
  | peerLeft id =>
    have h : id ∉ s.announced := h
    simp [apply, forget, h]

/-- Any other changes who is announced, or starts with a `Ready`. -/
theorem State.apply_of_not_inert {s : State} {c : Control} (h : ¬ c.Inert s.announced) :
    (s.apply c).announced ≠ s.announced ∨ ∃ id new, (s.apply c).events = s.events ++ .ready id :: new := by
  cases c with
  | welcome yourId peers =>
    have hrest : Adds (fun _ => True) (s.emit (.ready yourId)) (s.apply (.welcome yourId peers)) :=
      ((announce_adds _ _).mono fun _ _ => trivial).trans
        (foldl_adds (fun s p => (announce_adds s p).mono fun _ _ => trivial) peers _)
    obtain ⟨new, hnew, -⟩ := hrest
    exact .inr ⟨yourId, new, by rw [hnew]; simp [emit]⟩
  | peerJoined id =>
    refine .inl fun he => h ?_
    rw [apply_announced, Control.update] at he
    exact Finset.insert_eq_self.1 he
  | peerLeft id =>
    refine .inl fun he => h ?_
    rw [apply_announced, Control.update] at he
    exact Finset.erase_eq_self.1 he

/-! ## Packets are the readers' alone -/

def Event.packet? : Event → Option Packet
  | .packet p => some p
  | _ => none

/-- The packets among a session's events. -/
def packets (events : List Event) : List Packet := events.filterMap Event.packet?

theorem mem_packets {events : List Event} {p : Packet} : p ∈ packets events ↔ .packet p ∈ events := by
  rw [packets, List.mem_filterMap]
  refine ⟨fun ⟨e, he, hp⟩ => ?_, fun h => ⟨_, h, rfl⟩⟩
  cases e with
  | packet q => rw [← Option.some.inj hp]; exact he
  | _ => simp [Event.packet?] at hp

namespace State

theorem Adds.packets {kind : Event → Prop} {s t : State} (h : Adds kind s t) (hk : ∀ e, kind e → e.packet? = none) :
    packets t.events = packets s.events := by
  obtain ⟨new, he, hn⟩ := h
  have hnew : new.filterMap Event.packet? = [] := List.filterMap_eq_nil_iff.2 fun e hm => hk e (hn e hm)
  rw [he, Session.packets, List.filterMap_append, hnew, List.append_nil]
  rfl

theorem Warns.packet? {e : Event} (h : Warns e) : e.packet? = none := by
  obtain ⟨text, rfl⟩ := h
  rfl

/-- A control message tells of peers, and of being ready. -/
theorem apply_adds (s : State) (c : Control) : Adds (fun e => e.packet? = none) s (s.apply c) := by
  have hann : ∀ (s : State) p, Adds (fun e => e.packet? = none) s (s.announce p) := fun s p =>
    (announce_adds s p).mono fun e he => by rw [he]; rfl
  cases c with
  | welcome yourId peers =>
    have hready : Adds (fun e => e.packet? = none) s (s.emit (.ready yourId)) := .emit s rfl
    exact (hready.trans (hann _ _)).trans (foldl_adds hann peers _)
  | peerJoined id => exact hann s id
  | peerLeft id => exact (forget_adds s id).mono fun e he => by rw [he]; rfl

theorem apply_packets (s : State) (c : Control) : packets (s.apply c).events = packets s.events :=
  (apply_adds s c).packets fun _ => id

end State

/-! ## Peer ids -/

/-- A client's id is never below the first one. -/
theorem firstClientId_le_followingId (id : Int32) : firstClientId ≤ followingId id := by
  rw [followingId]
  change firstClientId ≤ if id + 1 ≤ firstClientId then firstClientId else id + 1
  split
  · exact Int32.le_refl _
  · next h => exact Int32.le_of_lt (Int32.not_le.1 h)

theorem toInt_followingId {id : Int32} (h₁ : 1 ≤ id.toInt) (h₂ : id.toInt < 2 ^ 31 - 1) :
    (followingId id).toInt = id.toInt + 1 := by
  have hadd : (id + 1).toInt = id.toInt + 1 := by
    rw [Int32.toInt_add, show (1 : Int32).toInt = 1 from rfl]
    exact Int.bmod_eq_of_le (by omega) (by omega)
  have hle : ¬ (id + 1 ≤ firstClientId ∧ id + 1 ≠ firstClientId) := by
    rintro ⟨hle, hne⟩
    rw [Int32.le_iff_toInt_le, hadd, show firstClientId.toInt = 2 from rfl] at hle
    exact hne (Int32.toInt_inj.1 (by rw [hadd, show firstClientId.toInt = 2 from rfl]; omega))
  rw [followingId, ← hadd]
  congr 1
  change (if id + 1 ≤ firstClientId then firstClientId else id + 1) = id + 1
  split
  · next h =>
    by_contra hne
    exact hle ⟨h, fun he => hne he.symm⟩
  · rfl

end Gdiroh.Session
