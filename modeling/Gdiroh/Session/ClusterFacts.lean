/-
What one action of the cluster can do, said once: the outcome of each action
(`Stepped`) and, session by session, the method its state went through
(`Moves`). Invariants of the cluster are case analyses on these.
-/
import Gdiroh.Session.Cluster

namespace Gdiroh.Session.Cluster

/-- The outcomes of `step`, one constructor to an outcome. -/
inductive Stepped (k : Cluster) : Action → Cluster → Prop
  | accept {c existing} (hc : c ∉ k.accepted)
      (hp : existing.Perm (k.members .host).state.links.keys) :
      Stepped k (.accept c existing)
        { k.setState .host ((k.members .host).state.welcome existing k.nextId c) with
          nextId := followingId k.nextId
          accepted := insert c k.accepted }
  | send {n limits keys target channel mode data} (hp : keys.Perm (k.members n).state.links.keys) :
      Stepped k (.send n limits keys target channel mode data)
        (k.setState n ((k.members n).state.send limits keys target channel mode data))
  | disconnect {n peer lost} :
      Stepped k (.disconnect n peer) { k.setState n ((k.members n).state.dropLink peer) with lost := lost }
  | control {n others c rest} (hi : (k.members n).internal = .control c :: rest) :
      Stepped k (.handle n others)
        (k.set n { k.members n with state := (k.members n).state.apply c, internal := rest })
  | lost {n others peer rest} (hi : (k.members n).internal = .lost peer :: rest)
      (hp : others.Perm ((k.members n).state.links.erase peer).keys) :
      Stepped k (.handle n others)
        (k.set n { k.members n with state := (k.members n).state.lost others peer, internal := rest })
  | lose {c} : Stepped k (.lose c) { k with lost := insert c k.lost }
  | watch {n c peer} (hr : (k.members n).state.readers.lookup c = some peer) (hl : c ∈ k.lost)
      (hw : (n, c) ∉ k.watched) :
      Stepped k (.watch n c)
        { k.set n { k.members n with internal := (k.members n).internal ++ [.lost peer] } with
          watched := insert (n, c) k.watched }
  | readFrame {n c channel frame k'}
      (hf : ((k.members n).state.handed c channel)[k.read n c channel]? = some frame)
      (hk : k.receive n c channel frame = some k') : Stepped k (.readFrame n c channel) k'
  | readDatagram {n i c datagram k'} (hd : (k.members n).state.datagrams[i]? = some (c, datagram))
      (hi : (n, i) ∉ k.arrived) (hk : k.receiveDatagram n c datagram = some k') :
      Stepped k (.readDatagram n i) { k' with arrived := insert (n, i) k'.arrived }

theorem step_cases {k k' : Cluster} {a : Action} (h : step k a = some k') : Stepped k a k' := by
  cases a with
  | accept c existing =>
    simp only [step] at h
    split at h
    · next hc => simp only [Option.some.injEq] at h; subst h; exact .accept hc.1 hc.2
    · simp at h
  | send n limits keys target channel mode data =>
    simp only [step] at h
    split at h
    · next hp => simp only [Option.some.injEq] at h; subst h; exact .send hp
    · simp at h
  | disconnect n peer =>
    simp only [step, Option.some.injEq] at h
    subst h
    exact .disconnect
  | handle n others =>
    simp only [step] at h
    split at h
    · simp at h
    · next hi => simp only [Option.some.injEq] at h; subst h; exact .control hi
    · next hi =>
      split at h
      · next hp => simp only [Option.some.injEq] at h; subst h; exact .lost hi hp
      · simp at h
  | lose c =>
    simp only [step, Option.some.injEq] at h
    subst h
    exact .lose
  | watch n c =>
    simp only [step] at h
    split at h
    · simp at h
    next hr =>
    split at h
    · next hc => simp only [Option.some.injEq] at h; subst h; exact .watch hr hc.1 hc.2
    · simp at h
  | readFrame n c channel =>
    simp only [step] at h
    split at h
    · simp at h
    · next hf => exact .readFrame hf h
  | readDatagram n i =>
    simp only [step] at h
    split at h
    · simp at h
    next hd =>
    split at h
    · next hi =>
      simp only [Option.map_eq_some_iff] at h
      obtain ⟨k₁, hk, rfl⟩ := h
      exact .readDatagram hd hi hk
    · simp at h

/-! ## What is where after an update -/

theorem set_members (k : Cluster) (n : Node) (m : Member) (x : Node) :
    (k.set n m).members x = if x = n then m else k.members x := by
  simp [set, Function.update_apply]

theorem setState_members (k : Cluster) (n : Node) (s : State) (x : Node) :
    (k.setState n s).members x = if x = n then { k.members n with state := s } else k.members x :=
  set_members ..

/-- What a report leaves of a session. -/
theorem report_members (k : Cluster) (r : Node) (c : Connection) (rep : Option Report) (x : Node) :
    (k.report r c rep).members x =
      match rep with
      | none => k.members x
      | some rep => if x = r then (k.members r).report rep else k.members x := by
  cases rep with
  | none => rfl
  | some rep => exact set_members k r _ x

@[simp] theorem report_accepted (k : Cluster) (r : Node) (c : Connection) (rep : Option Report) :
    (k.report r c rep).accepted = k.accepted := by
  cases rep with
  | none => rfl
  | some rep => rfl

@[simp] theorem report_nextId (k : Cluster) (r : Node) (c : Connection) (rep : Option Report) :
    (k.report r c rep).nextId = k.nextId := by
  cases rep with
  | none => rfl
  | some rep => rfl

@[simp] theorem report_read (k : Cluster) (r : Node) (c : Connection) (rep : Option Report) :
    (k.report r c rep).read = k.read := by
  cases rep with
  | none => rfl
  | some rep => rfl

theorem receiver_eq_some {k : Cluster} {n r : Node} {c : Connection} {peer : Int32} :
    k.receiver n c = some (r, peer) ↔ other n c = some r ∧ (k.members r).state.readers.lookup c = some peer := by
  simp only [receiver, Option.bind_eq_some_iff, Option.map_eq_some_iff, Prod.mk.injEq]
  constructor
  · rintro ⟨r', hr, p, hp, rfl, rfl⟩
    exact ⟨hr, hp⟩
  · rintro ⟨hr, hp⟩
    exact ⟨r, hr, peer, hp, rfl, rfl⟩

theorem receive_eq_some {k k' : Cluster} {n : Node} {c : Connection} {channel : Int32} {frame : Bytes} :
    k.receive n c channel frame = some k' ↔ ∃ r peer, k.receiver n c = some (r, peer) ∧
      (k.report r c (Session.readFrame peer channel frame)).countRead n c channel = k' := by
  simp only [receive, Option.map_eq_some_iff, Prod.exists]

theorem receiveDatagram_eq_some {k k' : Cluster} {n : Node} {c : Connection} {datagram : Bytes} :
    k.receiveDatagram n c datagram = some k' ↔ ∃ r peer, k.receiver n c = some (r, peer) ∧
      (k.remember r c (Session.readDatagram peer ((k.members r).last c) datagram).1).report r c
        ((Session.readDatagram peer ((k.members r).last c) datagram).2.map .packet) = k' := by
  simp only [receiveDatagram, Option.map_eq_some_iff, Prod.exists]

theorem remember_state (k : Cluster) (r : Node) (c : Connection) (last : Last) (n : Node) :
    ((k.remember r c last).members n).state = (k.members n).state ∧
      ((k.remember r c last).members n).internal = (k.members n).internal := by
  rw [remember, set_members]
  split
  · next hn => subst hn; exact ⟨rfl, rfl⟩
  · exact ⟨rfl, rfl⟩

/-! ## One session at a time -/

/-- The method a session's state goes through between two states of the
cluster. -/
inductive Moves (k : Cluster) (a : Action) (k' : Cluster) (n : Node) (s : State) : State → Prop
  | same : Moves k a k' n s s
  | welcome {c existing} (hn : n = .host) (hc : c ∉ k.accepted) (hc' : k'.accepted = insert c k.accepted)
      (hid : k'.nextId = followingId k.nextId) (hp : existing.Perm s.links.keys) :
      Moves k a k' n s (s.welcome existing k.nextId c)
  | send {limits keys target channel mode data} (ha : a = .send n limits keys target channel mode data)
      (hp : keys.Perm s.links.keys) :
      Moves k a k' n s (s.send limits keys target channel mode data)
  | drop {peer} : Moves k a k' n s (s.dropLink peer)
  | apply {c} (hi : .control c ∈ (k.members n).internal) : Moves k a k' n s (s.apply c)
  | lost {others peer} (hp : others.Perm (s.links.erase peer).keys) : Moves k a k' n s (s.lost others peer)
  | packet {p} : Moves k a k' n s (s.emit (.packet p))

theorem report_state (m : Member) (rep : Report) :
    (m.report rep).state = m.state ∨ ∃ p, (m.report rep).state = m.state.emit (.packet p) := by
  cases rep with
  | packet p => exact .inr ⟨p, rfl⟩
  | control c => exact .inl rfl

theorem report_moves {k k₁ k₂ : Cluster} {a : Action} (r : Node) (c : Connection) (rep : Option Report) (n : Node) :
    Moves k₁ a k₂ n (k.members n).state ((k.report r c rep).members n).state := by
  rw [report_members]
  cases rep with
  | none => exact .same
  | some rep =>
    dsimp only
    split
    · next hn =>
      subst hn
      rcases report_state (k.members n) rep with he | ⟨p, he⟩
      · rw [he]; exact .same
      · rw [he]; exact .packet
    · exact .same

theorem report_wire (k : Cluster) (r : Node) (c : Connection) (rep : Option Report) (n : Node) :
    (k.members n).state.SameWire ((k.report r c rep).members n).state := by
  rw [report_members]
  cases rep with
  | none => exact .refl _
  | some rep =>
    dsimp only
    split
    · next hn =>
      subst hn
      rcases report_state (k.members n) rep with he | ⟨p, he⟩
      · rw [he]; exact .refl _
      · rw [he]; exact State.emit_wire _ _
    · exact .refl _

/-- **Every action moves each session by at most one method.** -/
theorem step_moves {k k' : Cluster} {a : Action} (h : Stepped k a k') (n : Node) :
    Moves k a k' n (k.members n).state (k'.members n).state := by
  cases h with
  | accept hc hp =>
    dsimp only
    rw [setState_members]
    split
    · next hn => subst hn; exact .welcome rfl hc rfl rfl hp
    · exact .same
  | send hp =>
    rw [setState_members]
    split
    · next hn => subst hn; exact .send rfl hp
    · exact .same
  | disconnect =>
    dsimp only
    rw [setState_members]
    split
    · next hn => subst hn; exact .drop
    · exact .same
  | control hi =>
    rw [set_members]
    split
    · next hn => subst hn; exact .apply (by simp [hi])
    · exact .same
  | lost hi hp =>
    rw [set_members]
    split
    · next hn => subst hn; exact .lost hp
    · exact .same
  | lose => exact .same
  | watch =>
    dsimp only
    rw [set_members]
    split
    · next hn => subst hn; exact .same
    · exact .same
  | readFrame hf hk =>
    obtain ⟨r, peer, -, rfl⟩ := receive_eq_some.1 hk
    exact report_moves r _ _ n
  | readDatagram hd hi hk =>
    obtain ⟨r, peer, -, rfl⟩ := receiveDatagram_eq_some.1 hk
    dsimp only
    rw [← (remember_state k r _ _ n).1]
    exact report_moves r _ _ n

/-- Accepting is the only action that touches the accepted connections and
the next id. -/
theorem step_accepted {k k' : Cluster} {a : Action} (h : Stepped k a k') :
    (∃ c existing, a = .accept c existing ∧ c ∉ k.accepted ∧ k'.accepted = insert c k.accepted ∧
      k'.nextId = followingId k.nextId) ∨
    ((∀ c existing, a ≠ .accept c existing) ∧ k'.accepted = k.accepted ∧ k'.nextId = k.nextId) := by
  cases h with
  | accept hc hp => exact .inl ⟨_, _, rfl, hc, rfl, rfl⟩
  | send | disconnect | control | lost | lose | watch => exact .inr ⟨nofun, rfl, rfl⟩
  | readFrame hf hk =>
    obtain ⟨r, peer, -, rfl⟩ := receive_eq_some.1 hk
    exact .inr ⟨nofun, report_accepted .., report_nextId ..⟩
  | readDatagram hd hi hk =>
    obtain ⟨r, peer, -, rfl⟩ := receiveDatagram_eq_some.1 hk
    exact .inr ⟨nofun, report_accepted (k.remember r _ _) .., report_nextId (k.remember r _ _) ..⟩

theorem accepted_mono {k k' : Cluster} {a : Action} (h : Stepped k a k') : k.accepted ⊆ k'.accepted := by
  rcases step_accepted h with ⟨c, _, -, -, he, -⟩ | ⟨-, he, -⟩
  · rw [he]; exact Finset.subset_insert c k.accepted
  · rw [he]

/-! ## Links and writers are in order -/

/-- What holds of every reachable cluster: the links are wired, the main
threads were told in turn, the host's connections were accepted, and a
client is linked to the host over its own connection and to nobody else. -/
structure Sane (k : Cluster) : Prop where
  wired : ∀ n, (k.members n).state.Wired
  told : ∀ n, Told (k.members n).state.events (k.members n).state.announced
  role : ∀ n, (k.members n).state.isHost = true ↔ n = .host
  hostConn : ∀ p c, (k.members .host).state.connOf p = some c → c ∈ k.accepted
  hostWriter : ∀ w ∈ (k.members .host).state.writers, w.1 ∈ k.accepted
  clientConn : ∀ c p d, (k.members (.client c)).state.connOf p = some d → p = hostId ∧ d = c

theorem Sane.unused {k : Cluster} (h : Sane k) {c : Connection} (hc : c ∉ k.accepted) :
    (k.members .host).state.Unused c :=
  ⟨fun p hp => hc (h.hostConn p c hp), fun _ hw => hc (h.hostWriter _ hw)⟩

theorem joined_connOf (c : Connection) (p : Int32) :
    (State.joined c).connOf p = if p = hostId then some c else none := by
  rw [State.joined, State.addLink_connOf]
  rfl

theorem wired_empty (b : Bool) (events : List Event) :
    ({ isHost := b, events := events } : State).Wired :=
  ⟨by simp, by simp, by simp [State.connOf], by simp⟩

theorem sane_init : Sane init where
  wired
    | .host => wired_empty true _
    | .client c => State.addLink_wired (wired_empty false []) ⟨by simp [State.connOf], by simp⟩ hostId
  told
    | .host => Told.nil.silent (show ∀ e ∈ [Event.ready hostId], e.Silent by simp [Event.Silent, Event.heard])
    | .client c => Told.nil
  role
    | .host => by simp [init, State.hosting]
    | .client c => by simp [init, State.joined, State.addLink]
  hostConn := by simp [init, State.hosting, State.connOf]
  hostWriter := by simp [init, State.hosting]
  clientConn := by
    intro c p d hp
    have hp : (State.joined c).connOf p = some d := hp
    rw [joined_connOf] at hp
    split at hp
    · next he => exact ⟨he, (Option.some.inj hp).symm⟩
    · simp at hp

/-- A welcome, or a method under which links only go and new writers are
for linked connections. -/
theorem Moves.kept {k k' : Cluster} {a : Action} {n : Node} {s t : State} (h : Moves k a k' n s t) (hw : s.Wired) :
    (n = .host ∧ ∃ c existing, c ∉ k.accepted ∧ k'.accepted = insert c k.accepted ∧
      existing.Perm s.links.keys ∧ t = s.welcome existing k.nextId c) ∨
    (t.Wired ∧ (∀ p c, t.connOf p = some c → s.connOf p = some c) ∧
      ∀ w ∈ t.writers, w ∈ s.writers ∨ ∃ p, s.connOf p = some w.1) := by
  have of_wire : ∀ {t}, State.SameWire s t → t.Wired ∧ (∀ p c, t.connOf p = some c → s.connOf p = some c) ∧
      ∀ w ∈ t.writers, w ∈ s.writers ∨ ∃ p, s.connOf p = some w.1 := fun ht =>
    ⟨hw.of_wire ht, fun p c hp => by rw [ht.connOf] at hp; exact hp, fun w hm => .inl (ht.writers ▸ hm)⟩
  cases h with
  | same => exact .inr (of_wire (.refl s))
  | welcome hn hc hc' _ hp => exact .inl ⟨hn, _, _, hc, hc', hp, rfl⟩
  | send hp =>
    obtain ⟨hw', hs⟩ := State.send_sends hw _ _ _ _ _ _
    refine .inr ⟨hw', fun p c hp => ?_, fun w hm => (hs.writers w hm).imp_right ?_⟩
    · rw [(State.send_same ..).connOf] at hp; exact hp
    · rintro ⟨⟨p, -, hp⟩, -⟩; exact ⟨p, hp⟩
  | drop => exact .inr (of_wire (State.dropLink_wire s _))
  | apply => exact .inr (of_wire (State.apply_wire s _))
  | @lost others peer hp =>
    obtain ⟨hw', hs⟩ := State.lost_sends others peer hw
    refine .inr ⟨hw', fun p c hp => ?_, fun w hm => (hs.writers w hm).imp_right And.left⟩
    rw [State.lost_connOf] at hp
    split at hp
    · simp at hp
    · exact hp
  | packet => exact .inr (of_wire (State.emit_wire s _))

theorem Moves.isHost {k k' : Cluster} {a : Action} {n : Node} {s t : State} (h : Moves k a k' n s t) : t.isHost = s.isHost := by
  cases h with
  | same => rfl
  | welcome => exact State.welcome_isHost ..
  | send => exact (State.send_same ..).isHost
  | drop => exact (State.dropLink_same ..).isHost
  | apply => exact (State.apply_wire ..).isHost
  | lost => exact State.lost_isHost ..
  | packet => rfl

theorem Moves.told {k k' : Cluster} {a : Action} {n : Node} {s t : State} (h : Moves k a k' n s t)
    (hs : Told s.events s.announced) : Told t.events t.announced := by
  cases h with
  | same => exact hs
  | welcome => exact State.welcome_told _ _ hs
  | send => exact State.Adds.told (State.send_warns ..) (State.send_same ..).announced hs
  | drop => exact State.Adds.told (.of_eq (State.dropLink_events ..)) (State.dropLink_same ..).announced hs
  | apply => exact State.apply_told hs _
  | lost => exact State.lost_told _ _ hs
  | @packet p => exact hs.silent (show ∀ e ∈ [Event.packet p], e.Silent by simp [Event.Silent, Event.heard])

/-- Events are only added. -/
theorem Moves.events_grow {k k' : Cluster} {a : Action} {n : Node} {s t : State} (h : Moves k a k' n s t) :
    s.events <+: t.events := by
  have of_adds : ∀ {kind : Event → Prop} {t : State}, State.Adds kind s t → s.events <+: t.events := by
    rintro kind t ⟨new, hnew, -⟩
    exact hnew ▸ List.prefix_append ..
  cases h with
  | same => exact List.prefix_refl _
  | welcome => exact of_adds (State.welcome_adds ..)
  | send => exact of_adds (State.send_warns ..)
  | drop => rw [State.dropLink_events]
  | apply => exact of_adds (State.apply_adds ..)
  | lost => exact of_adds (State.lost_adds ..)
  | packet => exact List.prefix_append ..

/-- What was handed over stays handed over, and writers keep their places. -/
theorem Moves.grows {k k' : Cluster} {a : Action} {n : Node} {t : State} (hs : Sane k)
    (h : Moves k a k' n (k.members n).state t) : (k.members n).state.writers <+: t.writers ∧
      ∀ c channel, (k.members n).state.handed c channel <+: t.handed c channel := by
  have of_wire : ∀ {s t : State}, s.SameWire t → s.writers <+: t.writers ∧
      ∀ c channel, s.handed c channel <+: t.handed c channel := fun ht =>
    ⟨by rw [ht.writers], fun c channel => by rw [ht.handed]⟩
  have of_sends : ∀ {s t : State} {dest ch data}, s.Sends t dest ch data →
      ∀ c channel, s.handed c channel <+: t.handed c channel := by
    intro s t dest ch data ht c channel
    obtain ⟨new, he, -⟩ := ht.handed c channel
    rw [he]
    exact List.prefix_append ..
  cases h with
  | same => exact of_wire (.refl _)
  | welcome hn hc =>
    subst hn
    exact ⟨State.welcome_writers_grows .., State.welcome_handed_grows (hs.wired _) (hs.unused hc) _ _⟩
  | send => exact ⟨State.send_writers_grows .., of_sends (State.send_sends (hs.wired n) _ _ _ _ _ _).2⟩
  | drop => exact of_wire (State.dropLink_wire ..)
  | apply => exact of_wire (State.apply_wire ..)
  | lost => exact ⟨State.lost_writers_grows .., of_sends (State.lost_sends _ _ (hs.wired n)).2⟩
  | packet => exact of_wire (State.emit_wire ..)

/-- Reading is the only action that counts frames as read, and it reads the
next one. -/
theorem step_read {k k' : Cluster} {a : Action} (hs : Stepped k a k') (n : Node) (c : Connection) (channel : Int32) :
    k'.read n c channel = k.read n c channel ∨
      a = .readFrame n c channel ∧ k'.read n c channel = k.read n c channel + 1 ∧
      k.read n c channel < ((k.members n).state.handed c channel).length := by
  cases hs with
  | accept | send | disconnect | control | lost | lose | watch => exact .inl rfl
  | @readFrame m d ch frame _ hf hk =>
    obtain ⟨r, peer, -, rfl⟩ := receive_eq_some.1 hk
    simp only [countRead, report_read]
    split
    · next he =>
      obtain ⟨rfl, rfl, rfl⟩ := he
      exact .inr ⟨rfl, rfl, (List.getElem?_eq_some_iff.1 hf).1⟩
    · exact .inl rfl
  | readDatagram hd hi hk =>
    obtain ⟨r, peer, -, rfl⟩ := receiveDatagram_eq_some.1 hk
    dsimp only
    rw [report_read]
    exact .inl rfl

/-- Readers do not get ahead of what was handed over. -/
def Readable (k : Cluster) : Prop :=
  ∀ n c channel, k.read n c channel ≤ ((k.members n).state.handed c channel).length

theorem readable_init : Readable init := fun _ _ _ => Nat.zero_le _

theorem readable_step {k k' : Cluster} {a : Action} (hs : Sane k) (h : Readable k) (hstep : Stepped k a k') :
    Readable k' := by
  intro n c channel
  have hlen := (((step_moves hstep n).grows hs).2 c channel).length_le
  have hle := h n c channel
  rcases step_read hstep n c channel with he | ⟨-, he, hlt⟩ <;> omega

theorem Sane.of_moves {k k' : Cluster} {a : Action} (h : Sane k) (hmono : k.accepted ⊆ k'.accepted)
    (hm : ∀ n, Moves k a k' n (k.members n).state (k'.members n).state) : Sane k' := by
  have hclient : ∀ c, (k'.members (.client c)).state.Wired ∧
      ∀ p d, (k'.members (.client c)).state.connOf p = some d → p = hostId ∧ d = c := by
    intro c
    rcases (hm (.client c)).kept (h.wired _) with ⟨hn, -⟩ | ⟨hw, hc, -⟩
    · simp at hn
    · exact ⟨hw, fun p d hp => h.clientConn c p d (hc p d hp)⟩
  -- The host's links: kept, or one more on a connection just accepted.
  have hhost : (k'.members .host).state.Wired ∧
      (∀ p c, (k'.members .host).state.connOf p = some c → c ∈ k'.accepted) ∧
      ∀ w ∈ (k'.members .host).state.writers, w.1 ∈ k'.accepted := by
    rcases (hm .host).kept (h.wired _) with ⟨-, c, existing, hc, hc', -, he⟩ | ⟨hw, hc, hwr⟩
    · have hu := h.unused hc
      rw [he, hc']
      refine ⟨State.welcome_wired (h.wired .host) hu existing _, fun p d hp => ?_, fun w hw => ?_⟩
      · rw [State.welcome_connOf] at hp
        split at hp
        · rw [← Option.some.inj hp]; exact Finset.mem_insert_self c _
        · exact Finset.mem_insert_of_mem (h.hostConn p d hp)
      · rcases State.welcome_writers (h.wired .host) hu existing _ hw with hw | hw | ⟨p, hp⟩
        · exact Finset.mem_insert_of_mem (h.hostWriter w hw)
        · rw [hw]; exact Finset.mem_insert_self c _
        · exact Finset.mem_insert_of_mem (h.hostConn p _ hp)
    · refine ⟨hw, fun p c hp => hmono (h.hostConn p c (hc p c hp)), fun w hm => ?_⟩
      rcases hwr w hm with hm | ⟨p, hp⟩
      · exact hmono (h.hostWriter w hm)
      · exact hmono (h.hostConn p _ hp)
  refine ⟨fun n => ?_, fun n => (hm n).told (h.told n), fun n => ?_, hhost.2.1, hhost.2.2, fun c => (hclient c).2⟩
  · cases n with
    | host => exact hhost.1
    | client c => exact (hclient c).1
  · rw [(hm n).isHost]
    exact h.role n

theorem sane_step {k k' : Cluster} {a : Action} (h : Sane k) (hs : Stepped k a k') : Sane k' :=
  h.of_moves (accepted_mono hs) (step_moves hs)

theorem sane_run {as : List Action} {k : Cluster} (h : Machine.run step init as = some k) : Sane k :=
  Machine.run_invariant (fun _ _ _ hs hstep => sane_step hs (step_cases hstep)) h sane_init

/-! ## Packets and the log -/

/-- Packets are emitted as they are logged. -/
def Logged (k : Cluster) : Prop := ∀ n, packets (k.members n).state.events = (k.log n).map Prod.snd

theorem logged_init : Logged init
  | .host => rfl
  | .client _ => rfl

theorem Logged.set {k : Cluster} (h : Logged k) {n : Node} {m : Member}
    (hm : packets m.state.events = packets (k.members n).state.events) : Logged (k.set n m) := by
  intro x
  rw [set_members]
  split
  · next he => subst he; exact hm.trans (h x)
  · exact h x

theorem Logged.report {k : Cluster} (h : Logged k) (r : Node) (c : Connection) (rep : Option Report) :
    Logged (k.report r c rep) := by
  cases rep with
  | none => exact h
  | some rep =>
    cases rep with
    | control control => exact h.set rfl
    | packet p =>
      intro x
      rw [report_members]
      simp only [Cluster.report, Function.update_apply]
      split
      · next he =>
        subst he
        have hx := h x
        simp only [packets] at hx
        simp [packets, Member.report, State.emit, Event.packet?, hx]
      · exact h x

theorem logged_step {k k' : Cluster} {a : Action} (h : Logged k) (hs : Stepped k a k') : Logged k' := by
  cases hs with
  | accept hc hp => exact h.set (m := { k.members .host with state := _ }) ((State.welcome_adds ..).packets fun e he => by rw [he]; rfl)
  | @send n limits keys target channel mode data hp =>
    exact h.set (m := { k.members n with state := _ }) ((State.send_warns ..).packets fun _ => State.Warns.packet?)
  | @disconnect n peer lost =>
    exact h.set (m := { k.members n with state := _ }) (congrArg packets (State.dropLink_events ..))
  | control hi => exact h.set (State.apply_packets ..)
  | lost hi hp =>
    refine h.set ((State.lost_adds ..).packets fun e he => ?_)
    rcases he with rfl | ⟨reason, rfl⟩ <;> rfl
  | lose => exact h
  | @watch n c peer hr hl hw => exact h.set (m := { k.members n with internal := _ }) rfl
  | readFrame hf hk =>
    obtain ⟨r, peer, -, rfl⟩ := receive_eq_some.1 hk
    exact h.report r _ _
  | @readDatagram n i c datagram k₁ hd hi hk =>
    obtain ⟨r, peer, -, rfl⟩ := receiveDatagram_eq_some.1 hk
    have hkept : Logged (k.remember r c (Session.readDatagram peer ((k.members r).last c) datagram).1) :=
      h.set (m := { k.members r with last := _ }) rfl
    exact hkept.report r _ _

/-- What reading a frame adds to a session's log. -/
theorem readFrame_log (k : Cluster) (r : Node) (c : Connection) (peer channel : Int32) (frame : Bytes) (m : Node) :
    (k.report r c (Session.readFrame peer channel frame)).log m =
      k.log m ++ if m = r ∧ channel ≠ controlChannel then [(c, ⟨peer, channel, .reliable, frame⟩)] else [] := by
  by_cases hch : channel = controlChannel
  · simp only [Session.readFrame, hch, if_true, ne_eq, not_true, and_false, if_false, List.append_nil]
    cases Control.decode64 frame with
    | none => rfl
    | some control => rfl
  · rw [readFrame_of_ne hch]
    by_cases hm : m = r
    · subst hm
      simp [report, hch]
    · simp [report, hm]

/-- Where a packet that `n` sent over `c` comes from: the next frame of its
stream, or one of the datagrams. -/
inductive Came (k : Cluster) (a : Action) (n : Node) (c : Connection) (p : Packet) : Prop
  | frame (ha : a = .readFrame n c p.channel) (hch : p.channel ≠ controlChannel) (hmode : p.mode = .reliable)
      (hf : ((k.members n).state.handed c p.channel)[k.read n c p.channel]? = some p.data)
  | datagram {last datagram} (hd : (c, datagram) ∈ (k.members n).state.datagrams)
      (hp : (Session.readDatagram p.peer last datagram).2 = some p)

/-- **Every packet logged** was sent by the session at the other end, and is
logged under the id its reader was started with. -/
theorem step_log {k k' : Cluster} {a : Action} (hs : Stepped k a k') (m : Node) :
    k'.log m = k.log m ∨ ∃ n c p, other n c = some m ∧ (k.members m).state.readers.lookup c = some p.peer ∧
      Came k a n c p ∧ k'.log m = k.log m ++ [(c, p)] := by
  cases hs with
  | accept | send | disconnect | control | lost | lose | watch => exact .inl rfl
  | @readFrame n c channel frame k' hf hk =>
    obtain ⟨r, peer, hr, rfl⟩ := receive_eq_some.1 hk
    obtain ⟨hr, hpeer⟩ := receiver_eq_some.1 hr
    have hlog := readFrame_log k r c peer channel frame m
    by_cases hm : m = r ∧ channel ≠ controlChannel
    · rw [if_pos hm] at hlog
      obtain ⟨rfl, hch⟩ := hm
      exact .inr ⟨n, c, ⟨peer, channel, .reliable, frame⟩, hr, hpeer, .frame rfl hch rfl hf, hlog⟩
    · rw [if_neg hm, List.append_nil] at hlog
      exact .inl hlog
  | @readDatagram n i c datagram k₁ hd hi hk =>
    obtain ⟨r, peer, hr, rfl⟩ := receiveDatagram_eq_some.1 hk
    obtain ⟨hother, hpeer⟩ := receiver_eq_some.1 hr
    dsimp only
    generalize hlast : (k.members r).last c = last
    cases hp : (Session.readDatagram peer last datagram).2 with
    | none => exact .inl rfl
    | some p =>
      obtain rfl := (readDatagram_some hp).1
      by_cases hm : m = r
      · subst hm
        refine .inr ⟨n, c, p, hother, hpeer, .datagram (List.mem_of_getElem? hd) hp, ?_⟩
        simp [report, remember, set]
      · exact .inl (by simp [report, remember, set, hm])

/-- Readers, once started, stay. -/
theorem Moves.readers_mono {k k' : Cluster} {a : Action} {n : Node} {s t : State} (h : Moves k a k' n s t)
    {c : Connection} {peer : Int32} (hr : s.readers.lookup c = some peer) : t.readers.lookup c = some peer := by
  cases h with
  | same => exact hr
  | welcome =>
    rw [State.welcome_readers, List.lookup_append, hr]
    rfl
  | send => rw [(State.send_same ..).readers]; exact hr
  | drop => rw [(State.dropLink_same ..).readers]; exact hr
  | apply => rw [(State.apply_wire ..).readers]; exact hr
  | lost => rw [State.lost_readers]; exact hr
  | packet => exact hr

/-- Each packet names the peer that the readers of its connection were
started for. -/
def Signed (k : Cluster) : Prop :=
  ∀ m, ∀ e ∈ k.log m, (k.members m).state.readers.lookup e.1 = some e.2.peer

theorem signed_init : Signed init := by simp [Signed, init]

theorem signed_step {k k' : Cluster} {a : Action} (h : Signed k) (hs : Stepped k a k') : Signed k' := by
  intro m e he
  refine (step_moves hs m).readers_mono ?_
  rcases step_log hs m with hlog | ⟨n, c, p, -, hr, -, hlog⟩
  · exact h m e (hlog ▸ he)
  · rw [hlog] at he
    rcases List.mem_append.1 he with he | he
    · exact h m e he
    · rw [List.mem_singleton.1 he]
      exact hr

theorem Signed.receive {k k' : Cluster} (h : Signed k) {n : Node} {c : Connection} {channel : Int32} {frame : Bytes}
    (hk : k.receive n c channel frame = some k') : Signed k' := by
  obtain ⟨r, peer, hr, rfl⟩ := receive_eq_some.1 hk
  obtain ⟨-, hpeer⟩ := receiver_eq_some.1 hr
  intro m e he
  have hreaders : (((k.report r c (Session.readFrame peer channel frame)).countRead n c channel).members m).state.readers =
      (k.members m).state.readers := (report_wire ..).readers
  rw [hreaders]
  change e ∈ (k.report r c (Session.readFrame peer channel frame)).log m at he
  rw [readFrame_log] at he
  rcases List.mem_append.1 he with he | he
  · exact h m e he
  · split at he
    · next hm =>
      rw [List.mem_singleton.1 he, hm.1]
      exact hpeer
    · simp at he

end Gdiroh.Session.Cluster
