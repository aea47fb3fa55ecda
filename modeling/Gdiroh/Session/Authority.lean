/-
Who decides membership. A hosting session takes whatever its clients write,
and its readers pass a control frame on to its task without saying who sent
it; `apply`, written for clients, then acts on it. So a client can make the
host emit `Ready`, `PeerConnected` and `PeerDisconnected` (`client_decides`).

A run is compared with the one in which the clients' bytes are absent: the
same accepts, losses and commands, no arrivals, and nothing of what came of
them. `undisturbed_iff` says exactly when the host's membership and events
(packets aside) are those of that run at every moment: when every control
message that its task takes is without effect.
-/
import Gdiroh.Session.Arrivals
import Gdiroh.Session.Handed
import Gdiroh.Lib.Machine

namespace Gdiroh.Session
open BigEndian Framing

/-- The events that are not packets. -/
def loud (events : List Event) : List Event := events.filter fun e => e.packet?.isNone

/-- A hosting session with its tasks. -/
structure Host where
  state : State := State.hosting
  internal : List Internal := []
  nextId : Int32 := firstClientId
  /-- Connections whose close watcher has reported. -/
  watched : Finset Connection := ∅
  arrivals : Arrivals := {}

namespace Host

inductive Action where
  /-- The accept arm takes a connection. -/
  | accept (c : Connection) (existing : List Int32)
  /-- The command arm takes a send. -/
  | send (limits : Limits) (keys : List Int32) (target channel : Int32) (mode : Mode) (data : Bytes)
  /-- The command arm takes a disconnect. -/
  | disconnect (peer : Int32)
  /-- A connection ends, and its watcher reports it. -/
  | watch (c : Connection)
  /-- The internal arm takes a loss. -/
  | lost (peer : Int32) (others : List Int32)
  /-- The internal arm takes a control message. -/
  | apply (control : Control)
  /-- Clients' bytes arrive or are read. -/
  | arrive (a : Arrival)

/-- A reader passes something on. -/
def report (h : Host) : Report → Host
  | .packet p => { h with state := h.state.emit (.packet p) }
  | .control c => { h with internal := h.internal ++ [.control c] }

def step (h : Host) : Action → Option Host
  | .accept c existing =>
    if h.state.readers.lookup c = none ∧ existing.Perm h.state.links.keys then
      some { h with state := h.state.welcome existing h.nextId c, nextId := followingId h.nextId }
    else none
  | .send limits keys target channel mode data =>
    if keys.Perm h.state.links.keys then
      some { h with state := h.state.send limits keys target channel mode data }
    else none
  | .disconnect peer => some { h with state := h.state.dropLink peer }
  | .watch c =>
    match h.state.readers.lookup c with
    | none => none
    | some peer =>
      if c ∈ h.watched then none
      else some { h with internal := h.internal ++ [.lost peer], watched := insert c h.watched }
  | .lost peer others =>
    match h.internal with
    | .lost p :: rest =>
      if p = peer ∧ others.Perm (h.state.links.erase peer).keys then
        some { h with state := h.state.lost others peer, internal := rest }
      else none
    | _ => none
  | .apply control =>
    match h.internal with
    | .control c :: rest => if c = control then some { h with state := h.state.apply c, internal := rest } else none
    | _ => none
  | .arrive a =>
    (h.arrivals.step h.state.readers a).map fun (arrivals, rep) =>
      let h := { h with arrivals := arrivals }
      rep.elim h h.report

/-- The action has nothing to do with clients' bytes. -/
def Action.own : Action → Bool
  | .apply _ | .arrive _ => false
  | _ => true

/-- The run in which the clients' bytes are absent. -/
def quiet (as : List Action) : List Action := as.filter Action.own

/-- The state two runs are compared by: announced peers, and events other
than packets. -/
def face (h : Host) : Finset Int32 × List Event := (h.state.announced, loud h.state.events)

/-- After this run the host is as if no client had written anything, and its
own id is still 1. -/
def Undisturbed (as : List Action) : Prop :=
  ∃ h q, Machine.run step {} as = some h ∧ Machine.run step {} (quiet as) = some q ∧ face h = face q ∧
    ∀ id, .ready id ∈ h.state.events → id = hostId

/-- If the action takes a control message, the message is without effect. -/
def Inert (h : Host) : Action → Prop
  | .apply control => control.Inert h.state.announced
  | _ => True

end Host

/-! ## No method looks at the events -/

namespace State

/-- The state without the packets. -/
def quieten (s : State) : State := { s with events := loud s.events }

theorem emit_quieten (s : State) {e : Event} (h : e.packet? = none) : (s.emit e).quieten = s.quieten.emit e := by
  simp [quieten, emit, loud, List.filter_append, h]

theorem writeReliable_quieten (s : State) (peer channel : Int32) (data : Bytes) :
    (s.writeReliable peer channel data).quieten = s.quieten.writeReliable peer channel data := by
  unfold writeReliable
  cases hl : s.links.lookup peer with
  | none => simp [quieten, hl]
  | some link =>
    cases hr : link.reliable.lookup channel with
    | none => simp [quieten, hl, hr]
    | some w => simp [quieten, hl, hr]

theorem controlTo_quieten (s : State) (peer : Int32) (c : Control) :
    (s.controlTo peer c).quieten = s.quieten.controlTo peer c := writeReliable_quieten ..

theorem announce_quieten (s : State) (peer : Int32) : (s.announce peer).quieten = s.quieten.announce peer := by
  by_cases hm : peer ∈ s.announced
  · simp [announce, quieten, hm]
  · simp [announce, quieten, hm, emit, loud, Event.packet?]

theorem forget_quieten (s : State) (peer : Int32) : (s.forget peer).quieten = s.quieten.forget peer := by
  by_cases hm : peer ∈ s.announced
  · simp [forget, quieten, hm, emit, loud, Event.packet?]
  · simp [forget, quieten, hm]

theorem foldl_quieten {f : State → Int32 → State} (hf : ∀ s p, (f s p).quieten = f s.quieten p) (peers : List Int32)
    (s : State) : (peers.foldl f s).quieten = peers.foldl f s.quieten := by
  induction peers generalizing s with
  | nil => rfl
  | cons p ps ih => rw [List.foldl_cons, ih, hf, List.foldl_cons]

theorem welcome_quieten (s : State) (existing : List Int32) (peer : Int32) (c : Connection) :
    (s.welcome existing peer c).quieten = s.quieten.welcome existing peer c := by
  simp only [welcome]
  rw [announce_quieten, foldl_quieten fun s p => controlTo_quieten s p _, controlTo_quieten]
  rfl

theorem lost_quieten (s : State) (others : List Int32) (peer : Int32) :
    (s.lost others peer).quieten = s.quieten.lost others peer := by
  by_cases hm : peer ∈ s.links
  · have hm' : peer ∈ s.quieten.links := hm
    have hunlink : (s.unlink peer).quieten = s.quieten.unlink peer := rfl
    have hrole : s.quieten.isHost = s.isHost := rfl
    rw [lost_eq hm, lost_eq hm', hrole]
    split
    · rw [foldl_quieten fun s p => controlTo_quieten s p _, forget_quieten, hunlink]
    split
    · rw [emit_quieten _ rfl, forget_quieten, hunlink]
    · rw [forget_quieten, hunlink]
  · have hm' : peer ∉ s.quieten.links := hm
    rw [lost_of_not_mem hm, lost_of_not_mem hm']

theorem dropLink_quieten (s : State) (peer : Int32) : (s.dropLink peer).quieten = s.quieten.dropLink peer := by
  unfold dropLink
  cases hl : s.links.lookup peer with
  | none => simp [quieten, hl]
  | some link => simp [quieten, hl]

theorem warnOversize_quieten (s : State) (peer channel : Int32) (data : Bytes) (limit : Nat) (link : Link) :
    (s.warnOversize peer channel data limit link).quieten = s.quieten.warnOversize peer channel data limit link := by
  unfold warnOversize
  split
  · rfl
  · exact emit_quieten _ rfl

theorem sendOne_quieten (s : State) (limits : Limits) (peer channel : Int32) (mode : Mode) (data : Bytes) :
    (s.sendOne limits peer channel mode data).quieten = s.quieten.sendOne limits peer channel mode data := by
  have hdatagram : (s.writeDatagram limits peer channel mode data).quieten =
      s.quieten.writeDatagram limits peer channel mode data := by
    unfold writeDatagram
    cases hl : s.links.lookup peer with
    | none => simp [quieten, hl]
    | some link =>
      have hl' : s.quieten.links.lookup peer = some link := hl
      simp only [hl']
      split
      · rw [writeReliable_quieten, warnOversize_quieten]
      · rfl
  unfold sendOne
  split
  · exact writeReliable_quieten ..
  · exact hdatagram
  · exact hdatagram

theorem send_quieten (s : State) (limits : Limits) (keys : List Int32) (target channel : Int32) (mode : Mode)
    (data : Bytes) : (s.send limits keys target channel mode data).quieten =
      s.quieten.send limits keys target channel mode data := by
  unfold send
  split
  · exact foldl_quieten (fun s p => sendOne_quieten s limits p channel mode data) _ s
  · exact sendOne_quieten ..

end State

namespace Host

/-! ## The two runs side by side -/

def lostOnly (internal : List Internal) : List Internal := internal.filter fun
  | .lost _ => true
  | .control _ => false

/-- `q` is `h` without the packets and the control messages. -/
structure Alike (h q : Host) : Prop where
  state : q.state = h.state.quieten
  internal : q.internal = lostOnly h.internal
  nextId : q.nextId = h.nextId
  watched : q.watched = h.watched

theorem alike_init : Alike {} {} := ⟨rfl, rfl, rfl, rfl⟩

/-- The host's own actions go through in both runs alike. -/
theorem alike_own {h h' q : Host} (hr : Alike h q) {a : Action} (ha : a.own = true) (hs : step h a = some h') :
    ∃ q', step q a = some q' ∧ Alike h' q' := by
  obtain ⟨hstate, hint, hid, hwatch⟩ := hr
  cases a with
  | accept c existing =>
    simp only [step] at hs
    split at hs
    · next hc =>
      have hc' : q.state.readers.lookup c = none ∧ existing.Perm q.state.links.keys := by rw [hstate]; exact hc
      rw [← Option.some.inj hs]
      refine ⟨{ q with state := q.state.welcome existing q.nextId c, nextId := followingId q.nextId }, if_pos hc',
        ?_, hint, congrArg followingId hid, hwatch⟩
      rw [hstate, hid]
      exact (State.welcome_quieten ..).symm
    · simp at hs
  | send limits keys target channel mode data =>
    simp only [step] at hs
    split at hs
    · next hc =>
      have hc' : keys.Perm q.state.links.keys := by rw [hstate]; exact hc
      rw [← Option.some.inj hs]
      refine ⟨{ q with state := q.state.send limits keys target channel mode data }, if_pos hc', ?_, hint, hid, hwatch⟩
      rw [hstate]
      exact (State.send_quieten ..).symm
    · simp at hs
  | disconnect peer =>
    rw [← Option.some.inj hs]
    refine ⟨{ q with state := q.state.dropLink peer }, rfl, ?_, hint, hid, hwatch⟩
    rw [hstate]
    exact (State.dropLink_quieten ..).symm
  | watch c =>
    simp only [step] at hs
    split at hs
    · simp at hs
    next peer hl =>
    split at hs
    · simp at hs
    next hw =>
    have hl' : q.state.readers.lookup c = some peer := by rw [hstate]; exact hl
    have hw' : c ∉ q.watched := by rw [hwatch]; exact hw
    rw [← Option.some.inj hs]
    refine ⟨{ q with internal := q.internal ++ [.lost peer], watched := insert c q.watched }, ?_, hstate, ?_, hid, ?_⟩
    · simp only [step, hl', if_neg hw']
    · simp [hint, lostOnly]
    · rw [hwatch]
  | lost peer others =>
    simp only [step] at hs
    split at hs
    · next p rest hi =>
      split at hs
      · next hc =>
        have hi' : q.internal = .lost p :: lostOnly rest := by rw [hint, hi]; rfl
        have hc' : p = peer ∧ others.Perm (q.state.links.erase peer).keys := by rw [hstate]; exact hc
        rw [← Option.some.inj hs]
        refine ⟨{ q with state := q.state.lost others peer, internal := lostOnly rest }, ?_, ?_, rfl, hid, hwatch⟩
        · simp only [step, hi', if_pos hc']
        · rw [hstate]
          exact (State.lost_quieten ..).symm
      · simp at hs
    · simp at hs
  | apply control => simp [Action.own] at ha
  | arrive a => simp [Action.own] at ha

/-- What comes of clients' bytes, as long as it is inert, is not seen in the
other run. -/
theorem alike_foreign {h h' q : Host} (hr : Alike h q) {a : Action} (ha : a.own = false) (hi : Inert h a)
    (hs : step h a = some h') : Alike h' q := by
  obtain ⟨hstate, hint, hid, hwatch⟩ := hr
  cases a with
  | apply control =>
    simp only [step] at hs
    split at hs
    · next c rest hc =>
      split at hs
      · next he =>
        subst he
        rw [← Option.some.inj hs]
        refine ⟨?_, ?_, hid, hwatch⟩
        · rw [hstate, State.apply_inert hi]
        · rw [hint, hc]
          rfl
      · simp at hs
    · simp at hs
  | arrive a =>
    simp only [step, Option.map_eq_some_iff, Prod.exists] at hs
    obtain ⟨arrivals, rep, -, rfl⟩ := hs
    cases rep with
    | none => exact ⟨hstate, hint, hid, hwatch⟩
    | some rep =>
      cases rep with
      | packet p =>
        refine ⟨?_, hint, hid, hwatch⟩
        rw [hstate]
        simp [report, State.quieten, State.emit, loud, Event.packet?]
      | control c =>
        refine ⟨hstate, ?_, hid, hwatch⟩
        rw [hint]
        simp [report, lostOnly]
  | _ => simp [Action.own] at ha

theorem alike_run {h q h' : Host} (hr : Alike h q) {as : List Action} (hs : Machine.run step h as = some h')
    (hi : Machine.Along step Inert h as) : ∃ q', Machine.run step q (quiet as) = some q' ∧ Alike h' q' := by
  induction as generalizing h q with
  | nil =>
    rw [← Option.some.inj hs]
    exact ⟨q, rfl, hr⟩
  | cons a as ih =>
    obtain ⟨h₁, h₁s, hs⟩ := Machine.run_cons.1 hs
    obtain ⟨hi, hrest⟩ := hi
    cases ha : a.own with
    | true =>
      obtain ⟨q₁, hq₁, hr₁⟩ := alike_own hr ha h₁s
      obtain ⟨q', hq', hr'⟩ := ih hr₁ hs (hrest h₁ h₁s)
      refine ⟨q', ?_, hr'⟩
      rw [quiet, List.filter_cons_of_pos ha]
      exact Machine.run_cons.2 ⟨q₁, hq₁, hq'⟩
    | false =>
      obtain ⟨q', hq', hr'⟩ := ih (alike_foreign hr ha hi h₁s) hs (hrest h₁ h₁s)
      refine ⟨q', ?_, hr'⟩
      rw [quiet, List.filter_cons_of_neg (by simp [ha])]
      exact hq'

theorem Alike.face {h q : Host} (hr : Alike h q) : face h = face q := by
  simp [Host.face, hr.state, State.quieten, loud]

/-! ## The host's own id -/

/-- The only id the host has ever taken is 1. -/
def OwnId (h : Host) : Prop := ∀ id, .ready id ∈ h.state.events → id = hostId

theorem OwnId.adds {h h' : Host} (ho : OwnId h) {kind : Event → Prop} (ha : h.state.Adds kind h'.state)
    (hk : ∀ id, ¬ kind (.ready id)) : OwnId h' := by
  intro id hm
  obtain ⟨new, he, hn⟩ := ha
  rw [he] at hm
  rcases List.mem_append.1 hm with hm | hm
  · exact ho id hm
  · exact absurd (hn _ hm) (hk id)

theorem ownId_step {h h' : Host} {a : Action} (ho : OwnId h) (hi : Inert h a) (hs : step h a = some h') :
    OwnId h' := by
  cases a with
  | accept c existing =>
    simp only [step] at hs
    split at hs
    · rw [← Option.some.inj hs]
      exact ho.adds (State.welcome_adds ..) (by simp)
    · simp at hs
  | send limits keys target channel mode data =>
    simp only [step] at hs
    split at hs
    · rw [← Option.some.inj hs]
      exact ho.adds (State.send_warns ..) (by simp [State.Warns])
    · simp at hs
  | disconnect peer =>
    rw [← Option.some.inj hs]
    intro id hm
    rw [State.dropLink_events] at hm
    exact ho id hm
  | watch c =>
    simp only [step] at hs
    split at hs
    · simp at hs
    split at hs
    · simp at hs
    · rw [← Option.some.inj hs]; exact ho
  | lost peer others =>
    simp only [step] at hs
    split at hs
    · split at hs
      · rw [← Option.some.inj hs]
        exact ho.adds (State.lost_adds ..) (by simp)
      · simp at hs
    · simp at hs
  | apply control =>
    simp only [step] at hs
    split at hs
    · split at hs
      · next he =>
        subst he
        rw [← Option.some.inj hs]
        intro id hm
        rw [State.apply_inert hi] at hm
        exact ho id hm
      · simp at hs
    · simp at hs
  | arrive a =>
    simp only [step, Option.map_eq_some_iff, Prod.exists] at hs
    obtain ⟨arrivals, rep, -, rfl⟩ := hs
    cases rep with
    | none => exact ho
    | some rep =>
      cases rep with
      | packet p =>
        have hadds : h.state.Adds (· = .packet p) (h.state.emit (.packet p)) := .emit h.state rfl
        exact OwnId.adds ho hadds (by simp)
      | control c => exact ho

/-! ## When the host decides alone -/

/-- A message that leaves announced peers and events as they were is inert. -/
theorem inert_of_face {h : Host} {c : Control}
    (he : (h.state.apply c).announced = h.state.announced ∧ loud (h.state.apply c).events = loud h.state.events) :
    Inert h (.apply c) := by
  by_contra hno
  rcases State.apply_of_not_inert hno with hann | ⟨id, new, hnew⟩
  · exact hann he.1
  · have hlen := congrArg List.length he.2
    rw [hnew] at hlen
    simp [loud, Event.packet?, List.filter_append] at hlen

/-- **The host decides alone exactly when every control message it takes is
inert.** For any run of a hosting session against any bytes: at every moment
of it the announced peers and the events other than packets are those of the
run without the bytes, and the host's id is 1, if and only if no client has
it apply a `Welcome`, a `PeerJoined` of a peer not announced or a `PeerLeft`
of one that is. -/
theorem undisturbed_iff {as : List Action} {h : Host} (hs : Machine.run step {} as = some h) :
    (∀ bs, bs <+: as → Undisturbed bs) ↔ Machine.Along step Inert {} as := by
  refine ⟨fun hall => ?_, fun hal bs hbs => ?_⟩
  · -- The first message with an effect shows in the very next state.
    induction as using List.reverseRecOn generalizing h with
    | nil => trivial
    | append_singleton bs a ih =>
      obtain ⟨h₁, hrun, hstep⟩ := Machine.run_concat.1 hs
      have hbs := ih hrun fun cs hcs => hall cs (hcs.trans (List.prefix_append ..))
      refine (Machine.along_append hrun).2 ⟨hbs, ?_, fun _ _ => trivial⟩
      cases a with
      | apply control =>
        obtain ⟨h₂, q₂, hr₂, hq₂, hf₂, -⟩ := hall bs (List.prefix_append ..)
        obtain ⟨h₃, q₃, hr₃, hq₃, hf₃, -⟩ := hall _ (List.prefix_refl _)
        obtain rfl : h₁ = h₂ := Option.some.inj (hrun.symm.trans hr₂)
        obtain rfl : h = h₃ := Option.some.inj (hs.symm.trans hr₃)
        have hquiet : quiet (bs ++ [.apply control]) = quiet bs := by simp [quiet, Action.own]
        rw [hquiet] at hq₃
        obtain rfl : q₂ = q₃ := Option.some.inj (hq₂.symm.trans hq₃)
        have hface := hf₃.trans hf₂.symm
        simp only [step] at hstep
        split at hstep
        · split at hstep
          · next he =>
            subst he
            rw [← Option.some.inj hstep] at hface
            exact inert_of_face (Prod.ext_iff.1 hface)
          · simp at hstep
        · simp at hstep
      | _ => trivial
  · obtain ⟨cs, rfl⟩ := hbs
    obtain ⟨h₁, hrun, -⟩ := Machine.run_append.1 hs
    obtain ⟨hal, -⟩ := (Machine.along_append hrun).1 hal
    obtain ⟨q, hq, hr⟩ := alike_run alike_init hrun hal
    refine ⟨h₁, q, hrun, hq, hr.face, ?_⟩
    have hinit : OwnId {} := by simp [OwnId, State.hosting]
    exact Machine.run_invariant_along (fun _ _ _ ho hi hstep => ownId_step ho hi hstep) hrun hal hinit

/-- A client writes a control frame on its stream, and the host takes it. -/
def writes (control : Control) : List Action :=
  [.accept 0 [], .arrive (.stream 0), .arrive (.bytes 0 (putI32 controlChannel ++ frame control.encode)),
    .arrive (.header 0), .arrive (.frame 0), .apply control]

theorem undisturbed_iff_writes : Undisturbed (writes (.peerJoined 2)) := by
  have hrun : ((Machine.run step {} (writes (.peerJoined 2))).map fun h => h.state.announced) = some {2} := by
    decide +kernel
  obtain ⟨h, hs, -⟩ := Option.map_eq_some_iff.1 hrun
  refine (undisturbed_iff hs).2 ?_ _ (List.prefix_refl _)
  have hbefore : ((Machine.run step {} (writes (.peerJoined 2)).dropLast).map fun h => h.state.announced) =
      some {2} := by
    decide +kernel
  obtain ⟨h₁, hs₁, he₁⟩ := Option.map_eq_some_iff.1 hbefore
  refine (Machine.along_append hs₁).2 ⟨Machine.along_of_forall (fun a ha s => ?_) _, ?_, fun _ _ => trivial⟩
  · simp only [writes, List.dropLast_cons_cons, List.dropLast_singleton, List.mem_cons, List.not_mem_nil, or_false] at ha
    rcases ha with rfl | rfl | rfl | rfl | rfl <;> trivial
  · change (2 : Int32) ∈ h₁.state.announced
    rw [he₁]
    decide

/-- **A client decides.** One frame on the control channel, and the host
tells of a peer that never connected. -/
theorem client_decides : ¬ ∀ as h, Machine.run step {} as = some h → Undisturbed as := by
  intro hall
  have hrun : ((Machine.run step {} (writes (.peerJoined 9))).map fun h => loud h.state.events) =
      some [.ready 1, .peerConnected 2, .peerConnected 9] := by
    decide +kernel
  have hquiet : ((Machine.run step {} (quiet (writes (.peerJoined 9)))).map fun h => loud h.state.events) =
      some [.ready 1, .peerConnected 2] := by
    decide +kernel
  obtain ⟨h, hs, he⟩ := Option.map_eq_some_iff.1 hrun
  obtain ⟨q, hq, he'⟩ := Option.map_eq_some_iff.1 hquiet
  obtain ⟨h₁, q₁, hs₁, hq₁, hface, -⟩ := hall _ h hs
  obtain rfl : h = h₁ := Option.some.inj (hs.symm.trans hs₁)
  obtain rfl : q = q₁ := Option.some.inj (hq.symm.trans hq₁)
  have hevents : loud h.state.events = loud q.state.events := congrArg Prod.snd hface
  rw [he, he'] at hevents
  exact absurd hevents (by decide)

end Host
end Gdiroh.Session
