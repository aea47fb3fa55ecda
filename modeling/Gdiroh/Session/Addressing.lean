/-
Addressing: who ends up with a packet, and under whose name.

A target designates members by Godot's convention. `send` routes by links,
and a client has one link only, so what a client sends to another client
goes to the host. The comment there says that the host relays it; nothing
does, and the host takes the packet for its own (`relay_missing`).

Where no client sends to another client, every packet a session is given was
asked for: some member sent that payload on that channel, with a target that
designates the session, and the packet names that member
(`packets_addressed`). The invariant follows each payload from the send to
the frame or datagram and on to the reader.
-/
import Gdiroh.Session.ClusterFacts

namespace Gdiroh.Session.Cluster

/-- The peer id of a member: 1 for the host, and for a client the id the
host accepted it under. -/
def idOf (k : Cluster) : Node → Option Int32
  | .host => some hostId
  | .client c => (k.members .host).state.readers.lookup c

/-- The members a target designates, by Godot's convention: one peer, every
member but the sender, or every one but the sender and one other. -/
def Designates (k : Cluster) (n : Node) (target : Int32) (m : Node) : Prop :=
  ∃ id, k.idOf m = some id ∧
    if 0 < target then id = target else m ≠ n ∧ (target < 0 → id.toInt ≠ -target.toInt)

/-- Some action of the run sent this payload on this channel from `n`, to a
target that designates `m`. -/
def Asked (as : List Action) (k : Cluster) (n m : Node) (channel : Int32) (data : Bytes) : Prop :=
  ∃ limits keys target mode, .send n limits keys target channel mode data ∈ as ∧ k.Designates n target m

/-- Every packet given to a member was asked for by the member it names. -/
def Addressed (as : List Action) (k : Cluster) : Prop :=
  ∀ m p, .packet p ∈ (k.members m).state.events → ∃ n, k.idOf n = some p.peer ∧ k.Asked as n m p.channel p.data

/-- The action is not a linked client's send to a peer other than the host. -/
def Direct (k : Cluster) : Action → Prop
  | .send (.client c) _ _ target _ _ _ => target ≤ hostId ∨ hostId ∉ (k.members (.client c)).state.links
  | _ => True

/-! ## Names -/

/-- Each session's readers name the other end by its id. -/
structure Named (k : Cluster) : Prop where
  next : k.nextId ≠ hostId
  linked : ∀ p c, (k.members .host).state.connOf p = some c →
    (k.members .host).state.readers.lookup c = some p ∧ p ≠ hostId
  accepted : ∀ c p, (k.members .host).state.readers.lookup c = some p → c ∈ k.accepted
  client : ∀ c, (k.members (.client c)).state.readers = [(c, hostId)]

theorem followingId_ne_hostId (id : Int32) : followingId id ≠ hostId := by
  intro he
  have hle := firstClientId_le_followingId id
  rw [he] at hle
  exact absurd hle (by decide)

theorem named_init : Named init where
  next := by decide
  linked := by simp [init, State.hosting, State.connOf]
  accepted := by simp [init, State.hosting]
  client := fun c => rfl

/-- A welcome adds a reader; every other method leaves the readers and can
only drop links. -/
theorem Moves.readers {k k' : Cluster} {a : Action} {n : Node} {s t : State} (h : Moves k a k' n s t) :
    (n = .host ∧ ∃ c, c ∉ k.accepted ∧ k'.accepted = insert c k.accepted ∧
      t.readers = s.readers ++ [(c, k.nextId)] ∧
      ∀ p d, t.connOf p = some d → p = k.nextId ∧ d = c ∨ s.connOf p = some d) ∨
    t.readers = s.readers ∧ ∀ p d, t.connOf p = some d → s.connOf p = some d := by
  have of_wire : ∀ {t}, State.SameWire s t → t.readers = s.readers ∧
      ∀ p d, t.connOf p = some d → s.connOf p = some d :=
    fun ht => ⟨ht.readers, fun p d hp => by rw [ht.connOf] at hp; exact hp⟩
  cases h with
  | same => exact .inr ⟨rfl, fun _ _ => id⟩
  | @welcome c existing hn hc hc' =>
    refine .inl ⟨hn, c, hc, hc', State.welcome_readers .., fun p d hp => ?_⟩
    rw [State.welcome_connOf] at hp
    split at hp
    · next he => exact .inl ⟨he, (Option.some.inj hp).symm⟩
    · exact .inr hp
  | send =>
    refine .inr ⟨(State.send_same ..).readers, fun p d hp => ?_⟩
    rw [(State.send_same ..).connOf] at hp
    exact hp
  | drop => exact .inr (of_wire (State.dropLink_wire ..))
  | apply => exact .inr (of_wire (State.apply_wire ..))
  | lost =>
    refine .inr ⟨State.lost_readers .., fun p d hp => ?_⟩
    rw [State.lost_connOf] at hp
    split at hp
    · simp at hp
    · exact hp
  | packet => exact .inr (of_wire (State.emit_wire ..))

/-- Ids, once given, stay. -/
theorem idOf_mono {k k' : Cluster} {a : Action} (hs : Stepped k a k') {n : Node} {id : Int32}
    (h : k.idOf n = some id) : k'.idOf n = some id := by
  cases n with
  | host => exact h
  | client c =>
    have h : (k.members .host).state.readers.lookup c = some id := h
    rcases (step_moves hs .host).readers with ⟨-, d, -, -, hr, -⟩ | ⟨hr, -⟩
    · rw [idOf, hr, List.lookup_append, h]
      rfl
    · rw [idOf, hr]
      exact h

theorem named_step {k k' : Cluster} {a : Action} (h : Named k) (hs : Stepped k a k') : Named k' := by
  have hmono := accepted_mono hs
  have hclient : ∀ c, (k'.members (.client c)).state.readers = [(c, hostId)] := by
    intro c
    rcases (step_moves hs (.client c)).readers with ⟨hn, -⟩ | ⟨hr, -⟩
    · simp at hn
    · rw [hr]
      exact h.client c
  have hnext : k'.nextId ≠ hostId := by
    rcases step_accepted hs with ⟨c, existing, -, -, -, hid⟩ | ⟨-, -, hid⟩
    · rw [hid]; exact followingId_ne_hostId _
    · rw [hid]; exact h.next
  rcases (step_moves hs .host).readers with ⟨-, c, hc, hacc, hr, hconn⟩ | ⟨hr, hconn⟩
  · -- The newcomer's connection had no reader before, so its lookup finds the new one.
    have hnone : (k.members .host).state.readers.lookup c = none := by
      by_contra hne
      obtain ⟨p, hp⟩ := Option.ne_none_iff_exists'.1 hne
      exact hc (h.accepted c p hp)
    refine ⟨hnext, fun p d hp => ?_, fun d p hp => ?_, hclient⟩
    · rcases hconn p d hp with ⟨rfl, rfl⟩ | hp
      · rw [hr, List.lookup_append, hnone]
        simp [h.next]
      · obtain ⟨hl, hne⟩ := h.linked p d hp
        rw [hr, List.lookup_append, hl]
        exact ⟨rfl, hne⟩
    · rw [hr, List.lookup_append] at hp
      by_cases hd : d = c
      · rw [hd, hacc]; exact Finset.mem_insert_self c _
      · have hd : (d == c) = false := by simpa using hd
        simp only [List.lookup_cons, hd, List.lookup_nil, Option.or_none] at hp
        exact hmono (h.accepted d p hp)
  · refine ⟨hnext, fun p d hp => ?_, fun d p hp => ?_, hclient⟩
    · rw [hr]
      exact h.linked p d (hconn p d hp)
    · rw [hr] at hp
      exact hmono (h.accepted d p hp)

/-- A reader's peer id is the id of the session at the other end. -/
theorem Named.idOf_sender {k : Cluster} (h : Named k) {n m : Node} {c : Connection} {peer : Int32}
    (hother : other n c = some m) (hr : (k.members m).state.readers.lookup c = some peer) :
    k.idOf n = some peer := by
  cases n with
  | host =>
    obtain rfl : Node.client c = m := Option.some.inj hother
    rw [h.client c] at hr
    simpa [idOf] using hr
  | client d =>
    simp only [other] at hother
    split at hother
    · next he =>
      obtain rfl : Node.host = m := Option.some.inj hother
      rw [idOf, he]
      exact hr
    · simp at hother

/-! ## Routing keeps to the target -/

/-- Leaving out `-target`, which wraps, leaves out the member it means. -/
theorem toInt_ne_neg {id target : Int32} (h : id ≠ -target) : id.toInt ≠ -target.toInt := by
  intro he
  refine h (Int32.toInt_inj.1 ?_)
  have h₁ := id.toInt_lt
  have h₂ := id.le_toInt
  rw [Int32.toInt_neg, ← he]
  exact (Int.bmod_eq_of_le (by omega) (by omega)).symm

/-- **A direct send keeps to its target.** Every link it picks leads to a
member the target designates. -/
theorem designates_of_picked {k : Cluster} (hs : Sane k) (hn : Named k) {n : Node} {limits : Limits}
    {keys : List Int32} {target channel : Int32} {mode : Mode} {data : Bytes}
    (hd : k.Direct (.send n limits keys target channel mode data)) {p : Int32} {c : Connection}
    (hp : p ∈ (k.members n).state.picked keys target) (hc : (k.members n).state.connOf p = some c) :
    ∃ m, other n c = some m ∧ k.Designates n target m := by
  cases n with
  | host =>
    obtain ⟨hid, hne⟩ := hn.linked p c hc
    refine ⟨.client c, rfl, p, hid, ?_⟩
    unfold State.picked at hp
    split at hp
    · next ht =>
      rw [if_neg (Int32.not_lt.2 ht)]
      exact ⟨by simp, fun _ => toInt_ne_neg (by simpa using (List.mem_filter.1 hp).2)⟩
    · next ht =>
      rw [if_pos (Int32.not_le.1 ht)]
      split at hp
      · exact List.mem_singleton.1 hp
      · exact absurd (List.mem_singleton.1 hp) hne
  | client d =>
    obtain ⟨rfl, rfl⟩ := hs.clientConn d p c hc
    refine ⟨.host, by simp [other], hostId, rfl, ?_⟩
    unfold State.picked at hp
    split at hp
    · next ht =>
      rw [if_neg (Int32.not_lt.2 ht)]
      exact ⟨by simp, fun _ => toInt_ne_neg (by simpa using (List.mem_filter.1 hp).2)⟩
    · next ht =>
      have hpos := Int32.not_le.1 ht
      rw [if_pos hpos]
      rcases hd with hle | hl
      · -- Positive and at most 1.
        rw [Int32.lt_iff_toInt_lt, show (0 : Int32).toInt = 0 from rfl] at hpos
        rw [Int32.le_iff_toInt_le, show hostId.toInt = 1 from rfl] at hle
        refine Int32.toInt_inj.1 ?_
        rw [show hostId.toInt = 1 from rfl]
        omega
      · exact absurd (State.mem_links_iff.2 ⟨c, hc⟩) hl

/-! ## From the send to the reader -/

theorem Designates.mono {k k' : Cluster} {a : Action} (hs : Stepped k a k') {n m : Node} {target : Int32}
    (h : k.Designates n target m) : k'.Designates n target m := by
  obtain ⟨id, hid, ht⟩ := h
  exact ⟨id, idOf_mono hs hid, ht⟩

theorem Asked.mono {k k' : Cluster} {as : List Action} {a : Action} (hs : Stepped k a k') {n m : Node}
    {channel : Int32} {data : Bytes} (h : k.Asked as n m channel data) : k'.Asked (as ++ [a]) n m channel data := by
  obtain ⟨limits, keys, target, mode, hm, ht⟩ := h
  exact ⟨limits, keys, target, mode, List.mem_append_left _ hm, ht.mono hs⟩

/-- Everything on its way to a session, and everything it was given, was
asked for. -/
structure Traced (as : List Action) (k : Cluster) : Prop where
  frames : ∀ n c channel, channel ≠ controlChannel → ∀ f ∈ (k.members n).state.handed c channel,
    ∃ m, other n c = some m ∧ k.Asked as n m channel f
  datagrams : ∀ n, ∀ d ∈ (k.members n).state.datagrams, ∃ m channel sequence data,
    other n d.1 = some m ∧ d.2 = frameDatagram channel sequence data ∧ k.Asked as n m channel data
  log : ∀ m, ∀ e ∈ k.log m, ∃ n, k.idOf n = some e.2.peer ∧ k.Asked as n m e.2.channel e.2.data

theorem traced_init : Traced [] init where
  frames := by
    intro n c channel _ f hf
    cases n with
    | host => simp [init, State.hosting, State.handed] at hf
    | client d => simp [init, State.joined, State.addLink, State.handed] at hf
  datagrams := by
    intro n d hd
    cases n with
    | host => simp [init, State.hosting] at hd
    | client c => simp [init, State.joined, State.addLink] at hd
  log := by simp [init]

/-- What a session has handed over off the control channel, after a step:
what it had, and what a send added. -/
theorem step_handed {k k' : Cluster} {a : Action} (hs : Sane k) (hstep : Stepped k a k') (n : Node) :
    (∃ limits keys target channel mode data, a = .send n limits keys target channel mode data ∧
      (k.members n).state.Sends (k'.members n).state
        (fun c => ∃ p ∈ (k.members n).state.picked keys target, (k.members n).state.connOf p = some c) channel data) ∨
    (∀ c channel, channel ≠ controlChannel →
      (k'.members n).state.handed c channel = (k.members n).state.handed c channel) ∧
      (k'.members n).state.datagrams = (k.members n).state.datagrams := by
  have of_wire : ∀ {s t : State}, s.SameWire t →
      (∀ c channel, channel ≠ controlChannel → t.handed c channel = s.handed c channel) ∧ t.datagrams = s.datagrams :=
    fun ht => ⟨fun c channel _ => ht.handed c channel, ht.datagrams⟩
  have hm := step_moves hstep n
  generalize (k'.members n).state = t at hm
  cases hm with
  | same => exact .inr ⟨fun _ _ _ => rfl, rfl⟩
  | welcome hn hc =>
    subst hn
    exact .inr ⟨fun c channel hch => State.welcome_handed_ne (hs.wired _) (hs.unused hc) _ _ c hch,
      State.welcome_datagrams ..⟩
  | send ha => exact .inl ⟨_, _, _, _, _, _, ha, (State.send_sends (hs.wired n) ..).2⟩
  | drop => exact .inr (of_wire (State.dropLink_wire ..))
  | apply => exact .inr (of_wire (State.apply_wire ..))
  | lost =>
    refine .inr ⟨fun c channel hch => ?_, State.lost_datagrams ..⟩
    obtain ⟨new, he, hnew⟩ := (State.lost_sends _ _ (hs.wired n)).2.handed c channel
    cases new with
    | nil => simpa using he
    | cons f fs => exact absurd (hnew f (by simp)).2.1 hch
  | packet => exact .inr (of_wire (State.emit_wire ..))

theorem traced_step {k k' : Cluster} {as : List Action} {a : Action} (hs : Sane k) (hn : Named k) (hd : k.Direct a)
    (h : Traced as k) (hstep : Stepped k a k') : Traced (as ++ [a]) k' := by
  refine ⟨fun n c channel hch f hf => ?_, fun n d hm => ?_, fun m e he => ?_⟩
  · have hold : f ∈ (k.members n).state.handed c channel →
        ∃ m, other n c = some m ∧ k'.Asked (as ++ [a]) n m channel f := by
      intro hf
      obtain ⟨m, hm, hask⟩ := h.frames n c channel hch f hf
      exact ⟨m, hm, hask.mono hstep⟩
    rcases step_handed hs hstep n with ⟨limits, keys, target, ch, mode, data, rfl, hsend⟩ | ⟨hsame, -⟩
    · obtain ⟨new, he, hnew⟩ := hsend.handed c channel
      rw [he] at hf
      rcases List.mem_append.1 hf with hf | hf
      · exact hold hf
      · obtain ⟨rfl, rfl, p, hp, hc⟩ := hnew f hf
        obtain ⟨m, hm, hdes⟩ := designates_of_picked hs hn hd hp hc
        exact ⟨m, hm, limits, keys, target, mode, by simp, hdes.mono hstep⟩
    · rw [hsame c channel hch] at hf
      exact hold hf
  · have hold : d ∈ (k.members n).state.datagrams → ∃ m channel sequence data,
        other n d.1 = some m ∧ d.2 = frameDatagram channel sequence data ∧ k'.Asked (as ++ [a]) n m channel data := by
      intro hm
      obtain ⟨m, channel, sequence, data, hm, he, hask⟩ := h.datagrams n d hm
      exact ⟨m, channel, sequence, data, hm, he, hask.mono hstep⟩
    rcases step_handed hs hstep n with ⟨limits, keys, target, ch, mode, data, rfl, hsend⟩ | ⟨-, hsame⟩
    · obtain ⟨new, he, hnew⟩ := hsend.datagrams
      rw [he] at hm
      rcases List.mem_append.1 hm with hm | hm
      · exact hold hm
      · obtain ⟨⟨p, hp, hc⟩, sequence, hframe⟩ := hnew d hm
        obtain ⟨m, hm, hdes⟩ := designates_of_picked hs hn hd hp hc
        exact ⟨m, ch, sequence, data, hm, hframe, limits, keys, target, mode, by simp, hdes.mono hstep⟩
    · rw [hsame] at hm
      exact hold hm
  · have hold : e ∈ k.log m →
        ∃ n, k'.idOf n = some e.2.peer ∧ k'.Asked (as ++ [a]) n m e.2.channel e.2.data := by
      intro he
      obtain ⟨n, hid, hask⟩ := h.log m e he
      exact ⟨n, idOf_mono hstep hid, hask.mono hstep⟩
    rcases step_log hstep m with hsame | ⟨n, c, p, hother, hr, hcame, hlog⟩
    · exact hold (hsame ▸ he)
    rw [hlog] at he
    rcases List.mem_append.1 he with he | he
    · exact hold he
    rw [List.mem_singleton.1 he]
    refine ⟨n, idOf_mono hstep (hn.idOf_sender hother hr), ?_⟩
    cases hcame with
    | frame _ hch _ hf =>
      obtain ⟨m', hm', hask⟩ := h.frames n c p.channel hch p.data (List.mem_of_getElem? hf)
      obtain rfl : m' = m := Option.some.inj (hm'.symm.trans hother)
      exact hask.mono hstep
    | datagram hd hp =>
      obtain ⟨m', channel, sequence, data, hm', hframe, hask⟩ := h.datagrams n _ hd
      obtain rfl : m' = m := Option.some.inj (hm'.symm.trans hother)
      dsimp only at hframe
      rw [hframe] at hp
      obtain ⟨-, rfl, rfl, -⟩ := readDatagram_packet hp
      exact hask.mono hstep

/-! ## Every run -/

/-- The action sends this payload on this channel. -/
def Action.Carries (channel : Int32) (data : Bytes) : Action → Prop
  | .send _ _ _ _ ch _ d => ch = channel ∧ d = data
  | _ => False

/-- **Packets keep to their targets** in every run in which no linked client
sends to a peer other than the host: whoever is given a packet was
designated by a send of that payload, and the packet names its sender. Of a
payload sent once, only that send can have been the one. -/
theorem packets_addressed {as : List Action} {k : Cluster} (h : Machine.run step init as = some k)
    (hd : Machine.Along step Direct init as) :
    k.Addressed as ∧
    ∀ before after n limits keys target channel mode data,
      as = before ++ .send n limits keys target channel mode data :: after →
      (∀ a ∈ before ++ after, ¬ a.Carries channel data) →
      ∀ m p, .packet p ∈ (k.members m).state.events → p.channel = channel → p.data = data →
        k.idOf n = some p.peer ∧ k.Designates n target m := by
  have hinv : Machine.Along step Direct init as → Sane k ∧ Named k ∧ Logged k ∧ Traced as k := by
    refine Machine.run_trace
      (I := fun as k => Machine.Along step Direct init as → Sane k ∧ Named k ∧ Logged k ∧ Traced as k)
      (fun _ => ⟨sane_init, named_init, logged_init, traced_init⟩) (fun as s a s' hrun hi hstep hal => ?_) h
    obtain ⟨hal, hlast⟩ := (Machine.along_append hrun).1 hal
    obtain ⟨hs, hn, hl, ht⟩ := hi hal
    have hstep := step_cases hstep
    exact ⟨sane_step hs hstep, named_step hn hstep, logged_step hl hstep, traced_step hs hn hlast.1 ht hstep⟩
  obtain ⟨-, -, hl, ht⟩ := hinv hd
  have haddr : k.Addressed as := by
    intro m p hp
    have hmem := mem_packets.2 hp
    rw [hl m, List.mem_map] at hmem
    obtain ⟨e, he, rfl⟩ := hmem
    exact ht.log m e he
  refine ⟨haddr, fun before after n limits keys target channel mode data has honce m p hp hch hdata => ?_⟩
  subst hch hdata
  obtain ⟨n', hid, limits', keys', target', mode', hmem, hdes⟩ := haddr m p hp
  rw [has, List.mem_append, List.mem_cons] at hmem
  rcases hmem with hmem | hmem | hmem
  · exact absurd ⟨rfl, rfl⟩ (honce _ (List.mem_append_left _ hmem))
  · simp only [Action.send.injEq] at hmem
    obtain ⟨rfl, -, -, rfl, -⟩ := hmem
    exact ⟨hid, hdes⟩
  · exact absurd ⟨rfl, rfl⟩ (honce _ (List.mem_append_right _ hmem))

/-- Two clients; the host sends to the second, the first to the host. -/
def direct : List Action :=
  [.accept 0 [], .accept 1 [2], .send .host (fun _ => none) [2, 3] 3 0 .reliable [7],
    .send (.client 0) (fun _ => some 1200) [1] 1 0 .unreliable [8],
    .readFrame .host 1 0, .readDatagram (.client 0) 0]

theorem packets_addressed_direct :
    ∃ k, Machine.run step init direct = some k ∧ k.Addressed direct ∧
      .packet ⟨1, 0, .reliable, [7]⟩ ∈ (k.members (.client 1)).state.events ∧
      .packet ⟨2, 0, .unreliable, [8]⟩ ∈ (k.members .host).state.events := by
  have hrun : ((Machine.run step init direct).map fun k =>
      ((k.members (.client 1)).state.events, (k.members .host).state.events)) =
      some ([.packet ⟨1, 0, .reliable, [7]⟩], [.ready 1, .peerConnected 2, .peerConnected 3,
        .packet ⟨2, 0, .unreliable, [8]⟩]) := by
    decide +kernel
  obtain ⟨k, hk, he⟩ := Option.map_eq_some_iff.1 hrun
  simp only [Prod.mk.injEq] at he
  have hdirect : Machine.Along step Direct init direct := by
    refine Machine.along_of_forall (fun a ha s => ?_) init
    simp only [direct, List.mem_cons, List.not_mem_nil, or_false] at ha
    rcases ha with rfl | rfl | rfl | rfl | rfl | rfl
    · trivial
    · trivial
    · trivial
    · exact .inl (by decide)
    · trivial
    · trivial
  exact ⟨k, hk, (packets_addressed hk hdirect).1, by simp [he.1], by simp [he.2]⟩

/-- Two clients; the first sends to the second. -/
def throughHost : List Action :=
  [.accept 0 [], .accept 1 [2], .send (.client 0) (fun _ => none) [1] 3 0 .reliable [7], .readFrame (.client 0) 0 0]

/-- **There is no relay.** What a client sends to another client, the host
is given as its own. -/
theorem relay_missing : ¬ ∀ as k, Machine.run step init as = some k → k.Addressed as := by
  intro hall
  have hrun : ((Machine.run step init throughHost).map fun k => (k.members .host).state.events) =
      some [.ready 1, .peerConnected 2, .peerConnected 3, .packet ⟨2, 0, .reliable, [7]⟩] := by
    decide +kernel
  obtain ⟨k, hk, he⟩ := Option.map_eq_some_iff.1 hrun
  obtain ⟨n, -, limits, keys, target, mode, hmem, id, hid, ht⟩ :=
    hall _ k hk .host ⟨2, 0, .reliable, [7]⟩ (by simp [he])
  simp only [throughHost, List.mem_cons, List.not_mem_nil, or_false, reduceCtorEq, false_or,
    Action.send.injEq] at hmem
  obtain ⟨-, -, -, rfl, -⟩ := hmem
  obtain rfl : hostId = id := Option.some.inj hid
  rw [if_pos (by decide)] at ht
  exact absurd ht (by decide)

end Gdiroh.Session.Cluster
