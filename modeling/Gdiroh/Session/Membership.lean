/-
Membership agreement: every client of a hosting session comes to see the
host's membership.

The host tells each client who is there in messages on one ordered stream,
and the messages for different peers cross accepts and losses in any order.
What holds at every moment is that a client's announced set, with the
messages still on their way to it applied in order, is the host and every
peer linked to the host but the client itself (`membership_agreement`). It
holds as long as ids have not wrapped and no application packet is sent on
the control channel.
-/
import Gdiroh.Session.ClusterFacts
import Mathlib.Data.Int.Interval

namespace Gdiroh.Session

/-- The membership message of a report to the session task. -/
def Internal.control? : Internal → Option Control
  | .control c => some c
  | .lost _ => none

/-- The membership messages waiting for a session task. -/
def Member.controls (m : Member) : List Control := m.internal.filterMap Internal.control?

namespace Cluster

def Action.isAccept : Action → Bool
  | .accept .. => true
  | _ => false

/-- The action is a send on a channel. -/
def Action.SendsOn (channel : Int32) : Action → Prop
  | .send _ _ _ _ ch _ _ => ch = channel
  | _ => False

/-- The frames on a client's control stream that its reader has not read. -/
def unread (k : Cluster) (c : Connection) : List Bytes :=
  ((k.members .host).state.handed c controlChannel).drop (k.read .host c controlChannel)

/-- The control messages on their way to a client: those waiting for its
session task, then those its stream reader has yet to read. -/
def inFlight (k : Cluster) (c : Connection) : List Control :=
  (k.members (.client c)).controls ++ (k.unread c).filterMap Control.decode64

/-- What the client will have announced once nothing is in flight. -/
def view (k : Cluster) (c : Connection) : Finset Int32 :=
  (k.inFlight c).foldl (fun told control => control.update told) (k.members (.client c)).state.announced

theorem foldl_apply_announced (cs : List Control) (s : State) :
    (cs.foldl State.apply s).announced = cs.foldl (fun told c => c.update told) s.announced := by
  induction cs generalizing s with
  | nil => rfl
  | cons c cs ih => rw [List.foldl_cons, ih, State.apply_announced, List.foldl_cons]

/-! ## The invariant -/

/-- Nothing has reached a client yet. -/
structure Fresh (k : Cluster) (c : Connection) : Prop where
  announced : (k.members (.client c)).state.announced = ∅
  controls : (k.members (.client c)).controls = []
  read : k.read .host c controlChannel = 0

/-- Ids are handed out in turn, no control message reaches the host, and
every client's view is the host's membership without the client. -/
structure Agreed (k : Cluster) : Prop where
  next : k.nextId.toInt = 2 + k.accepted.card
  range : ∀ p c, (k.members .host).state.connOf p = some c → 2 ≤ p.toInt ∧ p.toInt < k.nextId.toInt
  clientQuiet : ∀ c, ∀ w ∈ (k.members (.client c)).state.writers, w.2 ≠ controlChannel
  hostQuiet : (k.members .host).controls = []
  announced : ∀ p, p ∈ (k.members .host).state.announced ↔ p ∈ (k.members .host).state.links
  fresh : ∀ c ∉ k.accepted, k.Fresh c
  agree : ∀ p c, (k.members .host).state.connOf p = some c → hostId ∈ (k.members (.client c)).state.links →
    ∀ q, q ∈ k.view c ↔ q = hostId ∨ q ∈ (k.members .host).state.links ∧ q ≠ p

theorem agreed_init : Agreed init where
  next := rfl
  range := by simp [init, State.hosting, State.connOf]
  clientQuiet := by simp [init, State.joined, State.addLink]
  hostQuiet := rfl
  announced := by simp [init, State.hosting]
  fresh := fun c _ => ⟨rfl, rfl, rfl⟩
  agree := by simp [init, State.hosting, State.connOf]

/-- The host's members are as they were, and so is the view of every client
that is still linked. -/
theorem Agreed.of_same {k k' : Cluster} (h : Agreed k) (hacc : k'.accepted = k.accepted)
    (hid : k'.nextId = k.nextId)
    (hhost : State.SameMembers (k.members .host).state (k'.members .host).state)
    (hcq : ∀ c, ∀ w ∈ (k'.members (.client c)).state.writers, w.2 ≠ controlChannel)
    (hhq : (k'.members .host).controls = [])
    (hfresh : ∀ c ∉ k.accepted, k'.Fresh c)
    (hview : ∀ c, hostId ∈ (k'.members (.client c)).state.links →
      hostId ∈ (k.members (.client c)).state.links ∧ k'.view c = k.view c) : Agreed k' where
  next := by rw [hid, hacc]; exact h.next
  range := by rw [hhost.connOf, hid]; exact h.range
  clientQuiet := hcq
  hostQuiet := hhq
  announced := fun p => by rw [hhost.announced, hhost.mem_links]; exact h.announced p
  fresh := fun c hc => hfresh c (hacc ▸ hc)
  agree := fun p c hp hl q => by
    rw [hhost.connOf] at hp
    obtain ⟨hl, hv⟩ := hview c hl
    rw [hv, hhost.mem_links]
    exact h.agree p c hp hl q

/-! ## Actions that leave membership alone -/

/-- A session's part in membership is as it was. -/
structure Quiet (m m' : Member) : Prop where
  same : State.SameMembers m.state m'.state
  controls : m'.controls = m.controls
  writers : ∀ w ∈ m'.state.writers, w ∈ m.state.writers ∨ w.2 ≠ controlChannel
  handed : ∀ c, m'.state.handed c controlChannel = m.state.handed c controlChannel

theorem Quiet.refl (m : Member) : Quiet m m := ⟨.refl _, rfl, fun _ => .inl, fun _ => rfl⟩

/-- The state goes through a method that leaves the wire alone. -/
theorem Quiet.of_wire {m m' : Member} (hs : State.SameWire m.state m'.state)
    (ha : m'.state.announced = m.state.announced) (hc : m'.controls = m.controls) : Quiet m m' :=
  ⟨⟨hs.isHost, ha, hs.connOf, hs.readers⟩, hc, fun _ hw => .inl (hs.writers ▸ hw), fun c => hs.handed c _⟩

theorem Quiet.trans {m₁ m₂ m₃ : Member} (h : Quiet m₁ m₂) (h' : Quiet m₂ m₃) : Quiet m₁ m₃ where
  same := h.same.trans h'.same
  controls := h'.controls.trans h.controls
  writers := fun w hw => (h'.writers w hw).elim (h.writers w) .inr
  handed := fun c => (h'.handed c).trans (h.handed c)

theorem quiet_set {k : Cluster} {n : Node} {m : Member} (h : Quiet (k.members n) m) (x : Node) :
    Quiet (k.members x) ((k.set n m).members x) := by
  rw [set_members]
  split
  · next he => subst he; exact h
  · exact .refl _

theorem Agreed.of_quiet {k k' : Cluster} (h : Agreed k) (hq : ∀ n, Quiet (k.members n) (k'.members n))
    (hacc : k'.accepted = k.accepted) (hid : k'.nextId = k.nextId)
    (hread : ∀ c, k'.read .host c controlChannel = k.read .host c controlChannel) : Agreed k' := by
  refine h.of_same hacc hid (hq .host).same (fun c w hw => ?_) ((hq .host).controls.trans h.hostQuiet)
    (fun c hc => ?_) (fun c hl => ?_)
  · exact ((hq (.client c)).writers w hw).elim (h.clientQuiet c w) id
  · obtain ⟨ha, hi, hr⟩ := h.fresh c hc
    exact ⟨(hq (.client c)).same.announced.trans ha, (hq (.client c)).controls.trans hi, (hread c).trans hr⟩
  · refine ⟨(hq (.client c)).same.mem_links.1 hl, ?_⟩
    simp only [view, inFlight, unread, (hq .host).handed c, hread c, (hq (.client c)).controls,
      (hq (.client c)).same.announced]

/-- A send off the control channel adds nothing to it. -/
theorem quiet_send {m : Member} (hw : m.state.Wired) {limits : Limits} {keys : List Int32}
    {target channel : Int32} {mode : Mode} {data : Bytes} (hch : channel ≠ controlChannel) :
    Quiet m { m with state := m.state.send limits keys target channel mode data } := by
  have hs := (State.send_sends hw limits keys target channel mode data).2
  refine ⟨State.send_same .., rfl, fun w hm => (hs.writers w hm).imp_right fun hm => ?_, fun c => ?_⟩
  · rw [hm.2]; exact hch
  · obtain ⟨new, he, hn⟩ := hs.handed c controlChannel
    cases new with
    | nil => simpa using he
    | cons f fs => exact absurd (hn f (by simp)).2.1.symm hch

/-- A reader that passes a packet on, or nothing. -/
theorem quiet_report (k : Cluster) (r : Node) (c : Connection) (p : Option Packet) (n : Node) :
    Quiet (k.members n) ((k.report r c (p.map .packet)).members n) := by
  cases p with
  | none => exact .refl _
  | some p => exact quiet_set (m := (k.members r).report (.packet p)) (.of_wire (State.emit_wire _ _) rfl rfl) n

/-! ## One client's turn -/

/-- One client changes, and at most its own stream is read. -/
theorem Agreed.at_client {k k' : Cluster} (h : Agreed k) (d : Connection)
    (hmem : ∀ n, n ≠ .client d → k'.members n = k.members n) (hacc : k'.accepted = k.accepted)
    (hid : k'.nextId = k.nextId)
    (hread : ∀ c, c ≠ d → k'.read .host c controlChannel = k.read .host c controlChannel)
    (hcq : ∀ w ∈ (k'.members (.client d)).state.writers, w.2 ≠ controlChannel)
    (hfresh : d ∉ k.accepted → k'.Fresh d)
    (hview : hostId ∈ (k'.members (.client d)).state.links →
      hostId ∈ (k.members (.client d)).state.links ∧ k'.view d = k.view d) : Agreed k' := by
  have hhost : k'.members .host = k.members .host := hmem .host (by simp)
  have hother : ∀ c, c ≠ d → k'.members (.client c) = k.members (.client c) := fun c hc => hmem _ (by simpa using hc)
  refine h.of_same hacc hid ?_ (fun c => ?_) ?_ (fun c hc => ?_) (fun c hl => ?_)
  · rw [hhost]; exact .refl _
  · by_cases hcd : c = d
    · subst hcd; exact hcq
    · rw [hother c hcd]; exact h.clientQuiet c
  · rw [hhost]; exact h.hostQuiet
  · by_cases hcd : c = d
    · subst hcd; exact hfresh hc
    · obtain ⟨ha, hi, hr⟩ := h.fresh c hc
      exact ⟨by rw [hother c hcd]; exact ha, by rw [hother c hcd]; exact hi, by rw [hread c hcd]; exact hr⟩
  · by_cases hcd : c = d
    · subst hcd; exact hview hl
    · rw [hother c hcd] at hl
      refine ⟨hl, ?_⟩
      simp only [view, inFlight, unread, hhost, hread c hcd, hother c hcd]

/-- A client's task applies the next message: it moves from what is in
flight to what is announced. -/
theorem agreed_control {k : Cluster} (h : Agreed k) {n : Node} {control : Control} {rest : List Internal}
    (hi : (k.members n).internal = .control control :: rest) :
    Agreed (k.set n { k.members n with state := (k.members n).state.apply control, internal := rest }) := by
  have hcontrols : (k.members n).controls = control :: rest.filterMap Internal.control? := by
    simp [Member.controls, hi, Internal.control?]
  cases n with
  | host => exact absurd (hcontrols.symm.trans h.hostQuiet) (by simp)
  | client d =>
    have hwire := State.apply_wire (k.members (.client d)).state control
    refine h.at_client d (fun n hn => ?_) rfl rfl (fun _ _ => rfl) ?_ (fun hd => ?_) (fun hl => ?_)
    · rw [set_members, if_neg hn]
    · rw [set_members, if_pos rfl, hwire.writers]
      exact h.clientQuiet d
    · exact absurd (hcontrols.symm.trans (h.fresh d hd).controls) (by simp)
    · rw [set_members, if_pos rfl, hwire.links] at hl
      refine ⟨hl, ?_⟩
      have hhost : (k.set (.client d) { k.members (.client d) with
          state := (k.members (.client d)).state.apply control, internal := rest }).members .host =
          k.members .host := by
        rw [set_members, if_neg (by simp)]
      simp only [view, inFlight, unread, hhost, hcontrols, List.cons_append, List.foldl_cons]
      rw [set_members, if_pos rfl, State.apply_announced]
      rfl

/-- A client's task takes the loss of a connection: of the host's, and then
it has no view any more, or of none it knows. -/
theorem agreed_lost_client {k : Cluster} (hs : Sane k) (h : Agreed k) {d : Connection} {peer : Int32}
    {rest : List Internal} {others : List Int32} (hi : (k.members (.client d)).internal = .lost peer :: rest) :
    Agreed (k.set (.client d) { k.members (.client d) with
      state := (k.members (.client d)).state.lost others peer, internal := rest }) := by
  have hcontrols : rest.filterMap Internal.control? = (k.members (.client d)).controls := by
    rw [Member.controls, hi]
    rfl
  have hrole : (k.members (.client d)).state.isHost = false := by
    have := hs.role (.client d)
    simpa using this
  by_cases hm : peer ∈ (k.members (.client d)).state.links
  · obtain ⟨c, hc⟩ := State.mem_links_iff.1 hm
    obtain ⟨rfl, -⟩ := hs.clientConn d peer c hc
    refine h.at_client d (fun n hn => ?_) rfl rfl (fun _ _ => rfl) ?_ (fun hd => ?_) (fun hl => ?_)
    · rw [set_members, if_neg hn]
    · rw [set_members, if_pos rfl, State.lost_client_writers _ _ hrole]
      exact h.clientQuiet d
    · obtain ⟨ha, hi, hr⟩ := h.fresh d hd
      refine ⟨?_, ?_, hr⟩
      · rw [set_members, if_pos rfl, State.lost_announced _ _ hm, ha]
        rfl
      · rw [set_members, if_pos rfl]
        exact hcontrols.trans hi
    · rw [set_members, if_pos rfl, State.mem_links_iff] at hl
      simp [State.lost_connOf] at hl
  · refine h.of_quiet (quiet_set ?_) rfl rfl (fun _ => rfl)
    rw [State.lost_of_not_mem hm]
    exact .of_wire (.refl _) rfl hcontrols

/-! ## The host's turn -/

/-- A message is handed to a client's control stream: it will be the last
one its view takes in. -/
theorem view_tell {k k' : Cluster} (hrd : Readable k) {c : Connection} (control : Control)
    (hsize : control.size < 2 ^ 32)
    (hclient : k'.members (.client c) = k.members (.client c))
    (hread : k'.read .host c controlChannel = k.read .host c controlChannel)
    (hhanded : (k'.members .host).state.handed c controlChannel =
      (k.members .host).state.handed c controlChannel ++ [control.encode]) :
    k'.view c = control.update (k.view c) := by
  have hunread : k'.unread c = k.unread c ++ [control.encode] := by
    rw [unread, unread, hread, hhanded, List.drop_append_of_le_length (hrd .host c controlChannel)]
  simp only [view, inFlight, hclient, hunread, List.filterMap_append, List.filterMap_cons,
    Control.decode64_encode hsize, List.filterMap_nil, ← List.append_assoc, List.foldl_append, List.foldl_cons,
    List.foldl_nil]

/-- The host's task takes the loss of a connection, and tells the rest. -/
theorem agreed_lost_host {k : Cluster} (hs : Sane k) (hrd : Readable k) (h : Agreed k) {peer : Int32} {rest : List Internal}
    {others : List Int32} (hi : (k.members .host).internal = .lost peer :: rest)
    (hp : others.Perm ((k.members .host).state.links.erase peer).keys) :
    Agreed (k.set .host { k.members .host with
      state := (k.members .host).state.lost others peer, internal := rest }) := by
  have hcontrols : rest.filterMap Internal.control? = (k.members .host).controls := by
    rw [Member.controls, hi]
    rfl
  have hrole : (k.members .host).state.isHost = true := (hs.role .host).2 rfl
  have hclient : ∀ c, (k.set .host { k.members .host with
      state := (k.members .host).state.lost others peer, internal := rest }).members (.client c) =
      k.members (.client c) := fun c => by
    rw [set_members, if_neg (by simp)]
  by_cases hm : peer ∈ (k.members .host).state.links
  · refine ⟨h.next, fun p c hc => ?_, fun c => ?_, ?_, fun p => ?_, fun c hc => ?_, fun p c hc hl q => ?_⟩
    · rw [set_members, if_pos rfl, State.lost_connOf] at hc
      split at hc
      · simp at hc
      · exact h.range p c hc
    · rw [hclient]; exact h.clientQuiet c
    · rw [set_members, if_pos rfl]; exact hcontrols.trans h.hostQuiet
    · rw [set_members, if_pos rfl, State.lost_announced _ _ hm, State.lost_mem_links, Finset.mem_erase, h.announced]
    · obtain ⟨ha, hi, hr⟩ := h.fresh c hc
      exact ⟨by rw [hclient]; exact ha, by rw [hclient]; exact hi, hr⟩
    · rw [set_members, if_pos rfl, State.lost_connOf] at hc
      rw [hclient] at hl
      split at hc
      · simp at hc
      next hne =>
      have hpm : p ∈ others := by
        rw [hp.mem_iff, ← AList.mem_keys, AList.mem_erase, State.mem_links_iff]
        exact ⟨hne, c, hc⟩
      have hhanded := State.lost_handed others peer (hs.wired .host) hrole
        (hp.nodup_iff.2 (AList.keys_nodup _)) hm hc hpm hne
      rw [view_tell hrd (.peerLeft peer) (by simp [Control.size]) (hclient c) rfl
        (by rw [set_members, if_pos rfl]; exact hhanded), set_members, if_pos rfl, State.lost_mem_links]
      have hhost : peer ≠ hostId := by
        obtain ⟨d, hd⟩ := State.mem_links_iff.1 hm
        rintro rfl
        exact absurd (h.range _ d hd).1 (by decide)
      simp only [Control.update, Finset.mem_erase, h.agree p c hc hl q]
      by_cases hq : q = peer
      · simp [hq, hhost]
      · simp [hq]
  · refine h.of_quiet (quiet_set ?_) rfl rfl (fun _ => rfl)
    rw [State.lost_of_not_mem hm]
    exact .of_wire (.refl _) rfl hcontrols

/-- There are at most as many links as ids were handed out. -/
theorem Agreed.length_existing_le {k : Cluster} (h : Agreed k) {existing : List Int32} (hn : existing.Nodup)
    (hmem : ∀ p ∈ existing, p ∈ (k.members .host).state.links) : existing.length ≤ k.accepted.card := by
  have hnext := h.next
  have hsub : (existing.map Int32.toInt).toFinset ⊆ Finset.Ico 2 (2 + (k.accepted.card : Int)) := by
    intro i hi
    simp only [List.mem_toFinset, List.mem_map] at hi
    obtain ⟨p, hp, rfl⟩ := hi
    obtain ⟨c, hc⟩ := State.mem_links_iff.1 (hmem p hp)
    have := h.range p c hc
    rw [Finset.mem_Ico]
    omega
  have hcard := Finset.card_le_card hsub
  rw [List.toFinset_card_of_nodup (hn.map fun p q he => Int32.toInt_inj.1 he), List.length_map, Int.card_Ico] at hcard
  omega

/-- The host accepts a connection: the newcomer is told of everyone, and
everyone of the newcomer. -/
theorem agreed_accept {k k' : Cluster} (hs : Sane k) (hrd : Readable k) (h : Agreed k)
    (hbound : k.accepted.card < 2 ^ 31 - 3) {c : Connection} (hc : c ∉ k.accepted) {existing : List Int32}
    (hp : existing.Perm (k.members .host).state.links.keys)
    (hhost : k'.members .host =
      { k.members .host with state := (k.members .host).state.welcome existing k.nextId c })
    (hclient : ∀ d, k'.members (.client d) = k.members (.client d)) (hid : k'.nextId = followingId k.nextId)
    (hacc : k'.accepted = insert c k.accepted) (hread : k'.read = k.read) : Agreed k' := by
  have hnext := h.next
  have hu := hs.unused hc
  have hmem : ∀ p, p ∈ existing ↔ p ∈ (k.members .host).state.links := fun p => by
    rw [hp.mem_iff, ← AList.mem_keys]
  have hfollow : (followingId k.nextId).toInt = k.nextId.toInt + 1 := toInt_followingId (by omega) (by omega)
  -- No linked id is as large as the next one, so the newcomer's is new.
  have hpeer : k.nextId ∉ existing := by
    intro hm
    obtain ⟨d, hd⟩ := State.mem_links_iff.1 ((hmem _).1 hm)
    have := (h.range _ d hd).2
    omega
  have hnodup : existing.Nodup := hp.nodup_iff.2 (AList.keys_nodup _)
  have hlen := h.length_existing_le hnodup fun p hm => (hmem p).1 hm
  refine ⟨?_, fun p d hd => ?_, fun d => ?_, ?_, fun p => ?_, fun d hd => ?_, fun p d hd hl q => ?_⟩
  · rw [hid, hacc, Finset.card_insert_of_notMem hc]
    omega
  · rw [hhost, State.welcome_connOf] at hd
    rw [hid]
    split at hd
    · next he => rw [he]; omega
    · have := h.range p d hd
      omega
  · rw [hclient]; exact h.clientQuiet d
  · rw [hhost]; exact h.hostQuiet
  · rw [hhost, State.welcome_announced, State.welcome_mem_links, Finset.mem_insert, h.announced]
  · rw [hacc] at hd
    obtain ⟨ha, hi, hr⟩ := h.fresh d fun hm => hd (Finset.mem_insert_of_mem hm)
    exact ⟨by rw [hclient]; exact ha, by rw [hclient]; exact hi, by rw [hread]; exact hr⟩
  · rw [hhost, State.welcome_connOf] at hd
    rw [hclient] at hl
    rw [hhost, State.welcome_mem_links]
    split at hd
    · next he =>
      -- The newcomer: nothing but its welcome is in flight.
      obtain rfl : c = d := Option.some.inj hd
      have hhanded := State.welcome_handed_new (hs.wired .host) hu existing k.nextId hpeer
      obtain ⟨ha, hi, -⟩ := h.fresh c hc
      have hview : k.view c = ∅ := by
        simp only [view, inFlight, unread, hi, State.handed_eq_nil (hu.writer controlChannel), List.drop_nil,
          List.filterMap_nil, List.append_nil, List.foldl_nil, ha]
      rw [view_tell hrd (.welcome k.nextId existing) (by simp only [Control.size]; omega) (hclient c) (by rw [hread])
        (by rw [hhost]; exact hhanded), hview, he]
      simp only [Control.update, Finset.mem_union, Finset.mem_insert, Finset.notMem_empty, or_false,
        List.mem_toFinset, hmem]
      by_cases hq : q = k.nextId
      · simp [hq, ← hmem, hpeer]
      · simp [hq]
    · next he =>
      have hpm : p ∈ existing := (hmem p).2 (State.mem_links_iff.2 ⟨d, hd⟩)
      have hhanded := State.welcome_handed_old (hs.wired .host) hu existing k.nextId hnodup hd hpm hpeer
      rw [view_tell hrd (.peerJoined k.nextId) (by simp [Control.size]) (hclient d) (by rw [hread])
        (by rw [hhost]; exact hhanded)]
      simp only [Control.update, Finset.mem_insert, h.agree p d hd hl q]
      by_cases hq : q = k.nextId
      · simp [hq, Ne.symm he]
      · simp [hq]

/-! ## Reading a stream -/

/-- What a control frame makes of the session that reads it. -/
theorem report_control (k : Cluster) (r : Node) (c : Connection) (control : Option Control) :
    ((k.report r c (control.map .control)).members r).state = (k.members r).state ∧
    ((k.report r c (control.map .control)).members r).controls = (k.members r).controls ++ control.toList := by
  cases control with
  | none => exact ⟨rfl, (List.append_nil _).symm⟩
  | some control =>
    rw [Option.map_some, report_members]
    dsimp only
    rw [if_pos rfl]
    exact ⟨rfl, List.filterMap_append⟩

/-- A client reads its control stream: the message moves from the stream to
the queue behind the earlier ones. -/
theorem agreed_readControl {k : Cluster} (hs : Sane k) (h : Agreed k) {c : Connection} {peer : Int32} {frame : Bytes}
    (hf : ((k.members .host).state.handed c controlChannel)[k.read .host c controlChannel]? = some frame) :
    Agreed ((k.report (.client c) c (Session.readFrame peer controlChannel frame)).countRead .host c
      controlChannel) := by
  have hacc : c ∈ k.accepted := by
    by_contra hc
    rw [State.handed_eq_nil ((hs.unused hc).writer controlChannel)] at hf
    simp at hf
  have hunread : k.unread c =
      frame :: ((k.members .host).state.handed c controlChannel).drop (k.read .host c controlChannel + 1) := by
    obtain ⟨hlt, hget⟩ := List.getElem?_eq_some_iff.1 hf
    rw [unread, List.drop_eq_getElem_cons hlt, hget]
  have hreport : Session.readFrame peer controlChannel frame = (Control.decode64 frame).map .control := if_pos rfl
  rw [hreport]
  generalize hk : k.report (.client c) c ((Control.decode64 frame).map .control) = k₁
  have hstate := report_control k (.client c) c (Control.decode64 frame)
  have hmem : ∀ n, n ≠ .client c → k₁.members n = k.members n := fun n hn => by
    rw [← hk, report_members]
    split
    · rfl
    · rw [if_neg hn]
  have hrest : k₁.accepted = k.accepted ∧ k₁.nextId = k.nextId ∧ k₁.read = k.read := by
    rw [← hk]
    exact ⟨report_accepted .., report_nextId .., report_read ..⟩
  rw [hk] at hstate
  refine h.at_client c hmem hrest.1 hrest.2.1 (fun d hd => ?_) ?_ (fun hc => absurd hacc hc) (fun hl => ⟨?_, ?_⟩)
  · simp [countRead, hd, hrest.2.2]
  · change ∀ w ∈ (k₁.members (.client c)).state.writers, _
    rw [hstate.1]
    exact h.clientQuiet c
  · change hostId ∈ (k₁.members (.client c)).state.links at hl
    rw [hstate.1] at hl
    exact hl
  · have hunread' : (k₁.countRead .host c controlChannel).unread c =
        ((k.members .host).state.handed c controlChannel).drop (k.read .host c controlChannel + 1) := by
      simp [unread, countRead, hmem .host (by simp), hrest.2.2]
    have hview : ∀ k : Cluster, k.view c = (k.inFlight c).foldl (fun told control => control.update told)
      (k.members (.client c)).state.announced := fun _ => rfl
    rw [hview, hview, inFlight, inFlight, hunread, hunread']
    change List.foldl _ (k₁.members (.client c)).state.announced ((k₁.members (.client c)).controls ++ _) = _
    rw [hstate.1, hstate.2]
    cases hd : Control.decode64 frame with
    | none => simp [hd]
    | some control => simp [hd]

/-- Reading a frame. Off the control channel it is a packet; on it, only the
host has ever written. -/
theorem agreed_readFrame {k k' : Cluster} (hs : Sane k) (h : Agreed k) {n : Node} {c : Connection} {channel : Int32}
    {frame : Bytes} (hf : ((k.members n).state.handed c channel)[k.read n c channel]? = some frame)
    (hk : k.receive n c channel frame = some k') : Agreed k' := by
  obtain ⟨r, peer, hr, rfl⟩ := receive_eq_some.1 hk
  by_cases hch : channel = controlChannel
  · subst hch
    cases n with
    | host =>
      obtain ⟨hr, -⟩ := receiver_eq_some.1 hr
      obtain rfl : Node.client c = r := Option.some.inj hr
      exact agreed_readControl hs h hf
    | client d =>
      have hquiet : (c, controlChannel) ∉ (k.members (.client d)).state.writers :=
        fun hm => h.clientQuiet d _ hm rfl
      rw [State.handed_eq_nil hquiet] at hf
      simp at hf
  · rw [readFrame_of_ne hch]
    refine h.of_quiet (quiet_report k r c (some ⟨peer, channel, .reliable, frame⟩)) rfl rfl fun d => ?_
    simp [countRead, Ne.symm hch]

/-! ## Every run -/

theorem agreed_step {k k' : Cluster} {a : Action} (hs : Sane k) (hrd : Readable k) (h : Agreed k)
    (hbound : k'.accepted.card < 2 ^ 31 - 2) (ha : ¬ a.SendsOn controlChannel) (hstep : Stepped k a k') :
    Agreed k' := by
  cases hstep with
  | accept hc hp =>
    have hcard := Finset.card_insert_of_notMem hc
    dsimp only at hbound
    refine agreed_accept hs hrd h (by omega) hc hp ?_ (fun d => ?_) rfl rfl rfl
    · dsimp only; rw [setState_members, if_pos rfl]
    · dsimp only; rw [setState_members, if_neg (by simp)]
  | send hp => exact h.of_quiet (quiet_set (quiet_send (hs.wired _) ha)) rfl rfl fun _ => rfl
  | @disconnect n peer lost =>
    have hq : Quiet (k.members n) { k.members n with state := (k.members n).state.dropLink peer } :=
      .of_wire (State.dropLink_wire ..) (State.dropLink_same ..).announced rfl
    exact h.of_quiet (quiet_set hq) rfl rfl fun _ => rfl
  | control hi => exact agreed_control h hi
  | @lost n others peer rest hi hp =>
    cases n with
    | host => exact agreed_lost_host hs hrd h hi hp
    | client d => exact agreed_lost_client hs h hi
  | lose => exact h.of_quiet (fun n => .refl _) rfl rfl fun _ => rfl
  | @watch n c peer hr hl hw =>
    have hq : Quiet (k.members n) { k.members n with internal := (k.members n).internal ++ [.lost peer] } :=
      .of_wire (.refl _) rfl (by simp [Member.controls, Internal.control?])
    exact h.of_quiet (quiet_set hq) rfl rfl fun _ => rfl
  | readFrame hf hk => exact agreed_readFrame hs h hf hk
  | @readDatagram n i c datagram k₁ hd hi hk =>
    obtain ⟨r, peer, -, rfl⟩ := receiveDatagram_eq_some.1 hk
    refine h.of_quiet (fun m => ?_) (report_accepted ..) (report_nextId ..) fun d => by rw [report_read]; rfl
    have hkept := remember_state k r c (Session.readDatagram peer ((k.members r).last c) datagram).1 m
    have hq : Quiet (k.members m) ((k.remember r c
        (Session.readDatagram peer ((k.members r).last c) datagram).1).members m) :=
      .of_wire (by rw [hkept.1]; exact .refl _) (by rw [hkept.1]) (by rw [Member.controls, hkept.2]; rfl)
    exact hq.trans (quiet_report ..)

/-- How many connections a run accepts. -/
theorem card_accepted {k k' : Cluster} {as : List Action} (h : Machine.run step k as = some k') :
    k'.accepted.card = k.accepted.card + as.countP Action.isAccept := by
  induction as generalizing k with
  | nil =>
    simp only [Machine.run_nil, Option.some.injEq] at h
    simp [h]
  | cons a as ih =>
    obtain ⟨k₁, h₁, h⟩ := Machine.run_cons.1 h
    rw [ih h, List.countP_cons]
    rcases step_accepted (step_cases h₁) with ⟨c, existing, rfl, hc, he, -⟩ | ⟨hne, he, -⟩
    · rw [he, Finset.card_insert_of_notMem hc]
      simp only [Action.isAccept, ite_true]
      omega
    · have hno : a.isAccept = false := by
        cases a with
        | accept c existing => exact absurd rfl (hne c existing)
        | _ => rfl
      simp [he, hno]

/-- With its accepts bounded, a run keeps to the invariant throughout. -/
theorem agreed_run {as : List Action} {k : Cluster} (h : Machine.run step init as = some k)
    (haccepts : as.countP Action.isAccept < 2 ^ 31 - 2) (hsends : ∀ a ∈ as, ¬ a.SendsOn controlChannel) :
    Sane k ∧ Agreed k := by
  -- The bound is on the accepts so far, so it travels inside the invariant.
  have hinv : Sane k ∧ Readable k ∧ (k.accepted.card < 2 ^ 31 - 2 → Agreed k) := by
    refine Machine.run_invariant_along
      (I := fun k => Sane k ∧ Readable k ∧ (k.accepted.card < 2 ^ 31 - 2 → Agreed k))
      (fun s a s' hi ha hstep => ?_) h (Machine.along_of_forall (fun a ha _ => hsends a ha) init)
      ⟨sane_init, readable_init, fun _ => agreed_init⟩
    obtain ⟨hs, hrd, hag⟩ := hi
    have hstep := step_cases hstep
    refine ⟨sane_step hs hstep, readable_step hs hrd hstep, fun hbound => ?_⟩
    have hmono := Finset.card_le_card (accepted_mono hstep)
    exact agreed_step hs hrd (hag (by omega)) hbound ha hstep
  refine ⟨hinv.1, hinv.2.2 ?_⟩
  rw [card_accepted h]
  simpa [init] using haccepts

/-- **Membership agreement.** In every run with fewer than `2^31 - 2` accepts
and no packet sent on the control channel, and for every client `c` linked
to the host under an id `p` and to the host itself: what is in flight to
`c`, applied in order, leaves it with the host and everyone the host is
linked to but `p`. The host has announced exactly its links, and on every
session a peer's events alternate, starting with `PeerConnected`. -/
theorem membership_agreement {as : List Action} {k : Cluster} (h : Machine.run step init as = some k)
    (haccepts : as.countP Action.isAccept < 2 ^ 31 - 2) (hsends : ∀ a ∈ as, ¬ a.SendsOn controlChannel) :
    (∀ p c, (k.members .host).state.connOf p = some c → hostId ∈ (k.members (.client c)).state.links →
      ((k.inFlight c).foldl State.apply (k.members (.client c)).state).announced =
        {hostId} ∪ (k.members .host).state.links.keys.toFinset \ {p} ∧
      (k.inFlight c = [] → (k.members (.client c)).state.announced =
        {hostId} ∪ (k.members .host).state.links.keys.toFinset \ {p})) ∧
    (k.members .host).state.announced = (k.members .host).state.links.keys.toFinset ∧
    ∀ n p, (heard (k.members n).state.events p).IsChain (· ≠ ·) ∧
      (heard (k.members n).state.events p).head? ≠ some false := by
  obtain ⟨hs, ha⟩ := agreed_run h haccepts hsends
  have hview : ∀ p c, (k.members .host).state.connOf p = some c → hostId ∈ (k.members (.client c)).state.links →
      ((k.inFlight c).foldl State.apply (k.members (.client c)).state).announced =
        {hostId} ∪ (k.members .host).state.links.keys.toFinset \ {p} := by
    intro p c hp hl
    rw [foldl_apply_announced]
    ext q
    have hq := ha.agree p c hp hl q
    rw [view] at hq
    rw [hq]
    simp [← AList.mem_keys]
  refine ⟨fun p c hp hl => ⟨hview p c hp hl, fun he => ?_⟩, ?_,
    fun n p => ⟨(hs.told n).alternate p, (hs.told n).first p⟩⟩
  · have := hview p c hp hl
    rw [he] at this
    exact this
  · ext p
    rw [ha.announced p, List.mem_toFinset, AList.mem_keys]

/-- Two clients are accepted, the first is told of both, the second leaves. -/
def joinAndLeave : List Action :=
  [.accept 0 [], .accept 1 [2], .readFrame .host 0 controlChannel, .handle (.client 0) [],
    .lose 1, .watch .host 1, .handle .host [2], .readFrame .host 0 controlChannel]

theorem membership_agreement_joinAndLeave :
    ∃ k, Machine.run step init joinAndLeave = some k ∧ (k.inFlight 0).length = 2 ∧
      ((k.inFlight 0).foldl State.apply (k.members (.client 0)).state).announced = {hostId} := by
  have hrun : ((Machine.run step init joinAndLeave).map fun k =>
      ((k.inFlight 0).length, (k.members .host).state.connOf 2, (k.members (.client 0)).state.connOf hostId,
        (k.members .host).state.links.keys)) = some (2, some 0, some 0, [2]) := by
    decide +kernel
  obtain ⟨k, hk, he⟩ := Option.map_eq_some_iff.1 hrun
  simp only [Prod.mk.injEq] at he
  obtain ⟨hlen, hp, hc, hkeys⟩ := he
  refine ⟨k, hk, hlen, ?_⟩
  have := ((membership_agreement hk (by decide) (by simp [joinAndLeave, Action.SendsOn])).1 2 0 hp (State.mem_links_iff.2 ⟨0, hc⟩)).1
  rw [this, hkeys]
  decide

end Cluster
end Gdiroh.Session
