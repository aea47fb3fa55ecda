/-
What a send on the host comes to (`State::send`), link by link.

`host_send_exact`: whatever the links, one copy of the payload goes to each
link the target designates and nothing anywhere else, as a datagram that fits
the connection or as a frame on the link's stream for the channel; the links
that are not designated stay as they are. Over any run of sends, each link and
channel is warned about once at most.

On the host nobody has id 0 or 1, so neither the `-0` of a send to everyone
nor the way round by the host ever names a link.
-/
import Gdiroh.Session.Authority
import Gdiroh.Session.Ordered

namespace Gdiroh.Session

/-- The peers a target designates: everyone, all but one, or one. -/
def Designated (target peer : Int32) : Prop :=
  target = 0 ∨ target < 0 ∧ peer ≠ -target ∨ 0 < target ∧ peer = target

instance (target peer : Int32) : Decidable (Designated target peer) := inferInstanceAs (Decidable (_ ∨ _))

/-- A payload that was to go out as a datagram and does not fit one. -/
def Oversize (limits : Limits) (c : Connection) (mode : Mode) (data : Bytes) : Prop :=
  mode ≠ .reliable ∧ (limits c).getD 0 < datagramHeader + data.length

instance (limits : Limits) (c : Connection) (mode : Mode) (data : Bytes) : Decidable (Oversize limits c mode data) :=
  inferInstanceAs (Decidable (_ ∧ _))

namespace State

/-- The datagrams handed to a connection, oldest first. -/
def datagramsTo (s : State) (c : Connection) : List Bytes :=
  s.datagrams.filterMap fun d => if d.1 = c then some d.2 else none

/-- The warnings that sends to these peers emit, each with its link and
channel. -/
def warnings (s : State) (limits : Limits) (peers : List Int32) (channel : Int32) (mode : Mode) (data : Bytes) :
    List ((Int32 × Int32) × Event) :=
  peers.filterMap fun p => (s.links.lookup p).bind fun link =>
    if Oversize limits link.connection mode data ∧ channel ∉ link.warned then
      some ((p, channel), .warning (oversizeWarning data.length ((limits link.connection).getD 0) channel))
    else none

end State

/-- One copy of the payload, on the link's connection: a datagram of channel,
sequence and payload that is no longer than the limit, or a frame on the
stream for the channel. -/
structure OneCopy (limits : Limits) (s t : State) (link : Link) (channel : Int32) (mode : Mode) (data : Bytes) :
    Prop where
  datagram : ¬ State.CarriedReliably limits link.connection mode data →
    t.datagramsTo link.connection =
        s.datagramsTo link.connection ++ [frameDatagram channel (link.sequence channel mode) data] ∧
      (frameDatagram channel (link.sequence channel mode) data).length ≤ (limits link.connection).getD 0 ∧
      ∀ ch, t.handed link.connection ch = s.handed link.connection ch
  frame : State.CarriedReliably limits link.connection mode data →
    t.datagramsTo link.connection = s.datagramsTo link.connection ∧
      t.handed link.connection channel = s.handed link.connection channel ++ [data] ∧
      ∀ ch, ch ≠ channel → t.handed link.connection ch = s.handed link.connection ch

/-- The payload goes to the links the target designates, and nothing else
changes. -/
structure Routed (limits : Limits) (s t : State) (target channel : Int32) (mode : Mode) (data : Bytes) : Prop where
  links : ∀ p, p ∈ t.links ↔ p ∈ s.links
  copy : ∀ p link, s.links.lookup p = some link → Designated target p → OneCopy limits s t link channel mode data
  others : ∀ p, ¬ Designated target p → t.links.lookup p = s.links.lookup p
  nobody : ∀ c, (∀ p, s.connOf p = some c → ¬ Designated target p) →
    t.datagramsTo c = s.datagramsTo c ∧ ∀ ch, t.handed c ch = s.handed c ch

/-- A run of sends, with the warnings emitted. -/
structure Sender where
  state : State
  warnings : List ((Int32 × Int32) × Event) := []

structure SendCall where
  limits : Limits
  /-- The keys of `links`, as the walk over them yields them. -/
  keys : List Int32
  target : Int32
  channel : Int32
  mode : Mode
  data : Bytes

def Sender.step (x : Sender) (a : SendCall) : Option Sender :=
  if a.keys.Perm x.state.links.keys then
    some {
      state := x.state.send a.limits a.keys a.target a.channel a.mode a.data
      warnings := x.warnings ++
        x.state.warnings a.limits (x.state.picked a.keys a.target) a.channel a.mode a.data }
  else none

/-! ## One link -/

namespace State

section
variable {s : State} {peer : Int32} (limits : Limits) (channel : Int32) (mode : Mode) (data : Bytes)

theorem sendOne_none (h : s.links.lookup peer = none) : s.sendOne limits peer channel mode data = s := by
  unfold sendOne
  split
  · simp [writeReliable, h]
  · simp [writeDatagram, h]
  · simp [writeDatagram, h]

theorem writeReliable_lookup_ne {q : Int32} (hq : q ≠ peer) :
    (s.writeReliable peer channel data).links.lookup q = s.links.lookup q := by
  unfold writeReliable
  split
  · rfl
  split
  · rfl
  · exact AList.lookup_insert_ne hq

theorem warnOversize_lookup_ne {q : Int32} (hq : q ≠ peer) (limit : Nat) (link : Link) :
    (s.warnOversize peer channel data limit link).links.lookup q = s.links.lookup q := by
  unfold warnOversize
  split
  · exact AList.lookup_insert_ne hq
  · exact AList.lookup_insert_ne hq

/-- A send leaves the other links alone. -/
theorem sendOne_lookup_ne {q : Int32} (hq : q ≠ peer) :
    (s.sendOne limits peer channel mode data).links.lookup q = s.links.lookup q := by
  have hdatagram : (s.writeDatagram limits peer channel mode data).links.lookup q = s.links.lookup q := by
    unfold writeDatagram
    split
    · rfl
    dsimp only
    split
    · rw [writeReliable_lookup_ne _ _ hq, warnOversize_lookup_ne _ _ hq]
    · exact AList.lookup_insert_ne hq
  unfold sendOne
  split
  · exact writeReliable_lookup_ne channel data hq
  · exact hdatagram
  · exact hdatagram

theorem writeReliable_warned {link : Link} (hl : s.links.lookup peer = some link) :
    ∃ link', (s.writeReliable peer channel data).links.lookup peer = some link' ∧ link'.warned = link.warned := by
  rw [writeReliable, hl]
  dsimp only
  split
  · exact ⟨link, hl, rfl⟩
  · exact ⟨_, AList.lookup_insert _, rfl⟩

/-- Before the reliable write of the oversize branch. -/
theorem warnOversize_own (limit : Nat) (link : Link) :
    (∃ link', (s.warnOversize peer channel data limit link).links.lookup peer = some link' ∧
      link'.warned = insert channel link.warned) ∧
    (s.warnOversize peer channel data limit link).datagrams = s.datagrams ∧
    (s.warnOversize peer channel data limit link).events =
      s.events ++ if channel ∉ link.warned then [.warning (oversizeWarning data.length limit channel)] else [] := by
  unfold warnOversize
  split
  next hin => exact ⟨⟨link, AList.lookup_insert _, (Finset.insert_eq_of_mem hin).symm⟩, rfl, by simp⟩
  next hin => exact ⟨⟨_, AList.lookup_insert _, rfl⟩, rfl, by simp [emit]⟩

theorem count_warned (link : Link) : (link.count channel mode).warned = link.warned := by
  unfold Link.count
  split <;> rfl

/-- The datagram that a link is handed, unless the payload goes out reliably. -/
def datagramOf (link : Link) : List (Connection × Bytes) :=
  if CarriedReliably limits link.connection mode data then []
  else [(link.connection, frameDatagram channel (link.sequence channel mode) data)]

/-- The warning about a link. -/
def warningOf (link : Link) : List Event :=
  if Oversize limits link.connection mode data ∧ channel ∉ link.warned then
    [.warning (oversizeWarning data.length ((limits link.connection).getD 0) channel)]
  else []

/-- **A send, on its own link.** -/
theorem sendOne_own {link : Link} (hl : s.links.lookup peer = some link) :
    (∃ link', (s.sendOne limits peer channel mode data).links.lookup peer = some link' ∧
      link'.warned = if Oversize limits link.connection mode data then insert channel link.warned else link.warned) ∧
    (s.sendOne limits peer channel mode data).datagrams = s.datagrams ++ datagramOf limits channel mode data link ∧
    (s.sendOne limits peer channel mode data).events = s.events ++ warningOf limits channel mode data link := by
  have hdatagram (hm : mode ≠ .reliable) :
      (∃ link', (s.writeDatagram limits peer channel mode data).links.lookup peer = some link' ∧
        link'.warned = if Oversize limits link.connection mode data then insert channel link.warned else link.warned) ∧
      (s.writeDatagram limits peer channel mode data).datagrams =
        s.datagrams ++ datagramOf limits channel mode data link ∧
      (s.writeDatagram limits peer channel mode data).events =
        s.events ++ warningOf limits channel mode data link := by
    simp only [writeDatagram, hl, length_frameDatagram, datagramOf, warningOf, CarriedReliably, Oversize, hm, false_or,
      ne_eq, not_false_eq_true, true_and]
    split
    next hbig =>
      obtain ⟨⟨mid, hmid, hwarned⟩, hdatagrams, hevents⟩ := @warnOversize_own s peer channel data
        ((limits link.connection).getD 0) (link.count channel mode)
      obtain ⟨link', hl', he⟩ := writeReliable_warned channel data hmid
      refine ⟨⟨link', hl', ?_⟩, ?_, ?_⟩
      · rw [he, hwarned, count_warned]
      · rw [writeReliable_datagrams, hdatagrams, List.append_nil]
      · rw [writeReliable_events, hevents, count_warned]
        simp only [hbig, true_and]
    next hsmall =>
      exact ⟨⟨_, AList.lookup_insert _, count_warned channel mode link⟩, rfl, by simp [hsmall]⟩
  unfold sendOne
  split
  · obtain ⟨link', hl', he⟩ := writeReliable_warned channel data hl
    refine ⟨⟨link', hl', ?_⟩, ?_, ?_⟩
    · simp [Oversize, he]
    · simp [datagramOf, CarriedReliably]
    · simp [warningOf, Oversize]
  · exact hdatagram (by simp)
  · exact hdatagram (by simp)

end

/-! ## Walking the links -/

section
variable {f : State → Int32 → State}
  (hother : ∀ (s : State) (p q : Int32), q ≠ p → (f s p).links.lookup q = s.links.lookup q)
include hother

theorem foldl_lookup_other {peers : List Int32} {q : Int32} (hq : q ∉ peers) (s : State) :
    (peers.foldl f s).links.lookup q = s.links.lookup q := by
  induction peers generalizing s with
  | nil => rfl
  | cons p ps ih =>
    simp only [List.mem_cons, not_or] at hq
    rw [List.foldl_cons, ih hq.2, hother s p q hq.1]

/-- What is walked once changes as by one call. -/
theorem foldl_lookup_own {P : Option Link → Option Link → Prop}
    (hown : ∀ (s : State) (p : Int32), P (s.links.lookup p) ((f s p).links.lookup p)) {peers : List Int32}
    (hn : peers.Nodup) {q : Int32} (hq : q ∈ peers) (s : State) :
    P (s.links.lookup q) ((peers.foldl f s).links.lookup q) := by
  induction peers generalizing s with
  | nil => simp at hq
  | cons p ps ih =>
    obtain ⟨hp, hps⟩ := List.nodup_cons.1 hn
    rw [List.foldl_cons]
    rcases List.mem_cons.1 hq with rfl | hq
    · rw [foldl_lookup_other hother hp]
      exact hown s q
    · have hne : q ≠ p := fun he => hp (he ▸ hq)
      rw [← hother s p q hne]
      exact ih hps hq (f s p)

/-- A log to which each call adds what it finds its link to ask for. -/
theorem foldl_log {α : Type} {out : State → List α} {g : Option Link → List α}
    (hout : ∀ (s : State) (p : Int32), out (f s p) = out s ++ g (s.links.lookup p)) {peers : List Int32}
    (hn : peers.Nodup) (s : State) :
    out (peers.foldl f s) = out s ++ peers.flatMap fun p => g (s.links.lookup p) := by
  induction peers generalizing s with
  | nil => simp
  | cons p ps ih =>
    obtain ⟨hp, hps⟩ := List.nodup_cons.1 hn
    have hrest : (ps.flatMap fun q => g ((f s p).links.lookup q)) = ps.flatMap fun q => g (s.links.lookup q) :=
      List.flatMap_congr fun q hq => by rw [hother s p q fun he => hp (he ▸ hq)]
    rw [List.foldl_cons, ih hps, hrest, hout, List.flatMap_cons, List.append_assoc]

end

/-! ## A whole send -/

section
variable {s : State} (limits : Limits) {keys : List Int32} (target channel : Int32) (mode : Mode) (data : Bytes)

theorem send_eq_foldl : s.send limits keys target channel mode data =
    (s.picked keys target).foldl (fun s p => s.sendOne limits p channel mode data) s := by
  unfold send picked
  split <;> rfl

theorem picked_nodup (hn : keys.Nodup) : (s.picked keys target).Nodup := by
  unfold picked
  split
  · exact hn.filter _
  · exact List.nodup_singleton _

theorem send_lookup_other {q : Int32} (hq : q ∉ s.picked keys target) :
    (s.send limits keys target channel mode data).links.lookup q = s.links.lookup q := by
  rw [send_eq_foldl]
  exact foldl_lookup_other (fun s p q h => sendOne_lookup_ne limits channel mode data h) hq s

theorem send_datagrams (hn : keys.Nodup) : (s.send limits keys target channel mode data).datagrams = s.datagrams ++
    (s.picked keys target).flatMap fun p => ((s.links.lookup p).map (datagramOf limits channel mode data)).getD [] := by
  rw [send_eq_foldl]
  refine foldl_log (g := fun link => (link.map (datagramOf limits channel mode data)).getD [])
    (fun s p q h => sendOne_lookup_ne limits channel mode data h) (fun s p => ?_) (picked_nodup target hn) s
  cases hl : s.links.lookup p with
  | none => simp [sendOne_none limits channel mode data hl]
  | some link => exact (sendOne_own limits channel mode data hl).2.1

theorem send_events (hn : keys.Nodup) : (s.send limits keys target channel mode data).events = s.events ++
    (s.warnings limits (s.picked keys target) channel mode data).map (·.2) := by
  have hlog : (s.send limits keys target channel mode data).events = s.events ++
      (s.picked keys target).flatMap fun p => ((s.links.lookup p).map (warningOf limits channel mode data)).getD [] := by
    rw [send_eq_foldl]
    refine foldl_log (g := fun link => (link.map (warningOf limits channel mode data)).getD [])
      (fun s p q h => sendOne_lookup_ne limits channel mode data h) (fun s p => ?_) (picked_nodup target hn) s
    cases hl : s.links.lookup p with
    | none => simp [sendOne_none limits channel mode data hl]
    | some link => exact (sendOne_own limits channel mode data hl).2.2
  rw [hlog, warnings, List.map_filterMap, List.filterMap_eq_flatMap_toList]
  congr 1
  refine List.flatMap_congr fun p _ => ?_
  cases s.links.lookup p with
  | none => rfl
  | some link =>
    simp only [Option.map_some, Option.getD_some, warningOf, Option.bind_some]
    split <;> rfl

/-- Of a list without duplicates, only one element adds anything. -/
theorem flatMap_single {α β : Type} {l : List α} {g : α → List β} {a : α} (hn : l.Nodup) (ha : a ∈ l)
    (hg : ∀ b ∈ l, b ≠ a → g b = []) : l.flatMap g = g a := by
  induction l with
  | nil => simp at ha
  | cons b l ih =>
    obtain ⟨hb, hl⟩ := List.nodup_cons.1 hn
    rw [List.flatMap_cons]
    by_cases hba : b = a
    · subst hba
      rw [List.flatMap_eq_nil_iff.2 fun x hx => hg x (by simp [hx]) fun he => hb (he ▸ hx), List.append_nil]
    · rw [hg b (by simp) hba, List.nil_append]
      exact ih hl ((List.mem_cons.1 ha).resolve_left fun he => hba he.symm) fun x hx => hg x (by simp [hx])

/-- What a send hands one connection in datagrams, peer by peer. -/
theorem send_datagramsTo_eq (hn : keys.Nodup) (c : Connection) :
    (s.send limits keys target channel mode data).datagramsTo c = s.datagramsTo c ++
      (s.picked keys target).flatMap fun p =>
        (((s.links.lookup p).map (datagramOf limits channel mode data)).getD []).filterMap
          fun d => if d.1 = c then some d.2 else none := by
  rw [datagramsTo, send_datagrams limits target channel mode data hn, List.filterMap_append, List.filterMap_flatMap]
  rfl

/-- A link on another connection is handed nothing here. -/
theorem datagramOf_other {link : Link} {c : Connection} (hc : link.connection ≠ c) :
    ((datagramOf limits channel mode data link).filterMap fun d => if d.1 = c then some d.2 else none) = [] := by
  unfold datagramOf
  split
  · rfl
  · simp [hc]

theorem send_datagramsTo (hw : s.Wired) (hn : keys.Nodup) {p : Int32} {link : Link} (hl : s.links.lookup p = some link)
    (hp : p ∈ s.picked keys target) : (s.send limits keys target channel mode data).datagramsTo link.connection =
      s.datagramsTo link.connection ++ (datagramOf limits channel mode data link).map (·.2) := by
  rw [send_datagramsTo_eq limits target channel mode data hn, flatMap_single (picked_nodup target hn) hp]
  · rw [hl]
    congr 1
    simp only [Option.map_some, Option.getD_some, datagramOf]
    split
    · rfl
    · simp
  · intro q _ hq
    cases hlq : s.links.lookup q with
    | none => rfl
    | some other =>
      refine datagramOf_other limits channel mode data fun he => hq ?_
      exact hw.distinct q p link.connection (connOf_eq_some.2 ⟨other, hlq, he⟩) (connOf_eq_some.2 ⟨link, hl, rfl⟩)

theorem send_datagramsTo_other (hn : keys.Nodup) {c : Connection}
    (hc : ∀ p ∈ s.picked keys target, s.connOf p ≠ some c) :
    (s.send limits keys target channel mode data).datagramsTo c = s.datagramsTo c := by
  rw [send_datagramsTo_eq limits target channel mode data hn, List.flatMap_eq_nil_iff.2, List.append_nil]
  intro p hp
  cases hl : s.links.lookup p with
  | none => rfl
  | some link => exact datagramOf_other limits channel mode data fun he => hc p hp (connOf_eq_some.2 ⟨link, hl, he⟩)

end
end State

/-! ## On the host -/

/-- What holds of a hosting session: its links are in order, with ids from 2
on, over connections it has started readers for. -/
structure Hosting (h : Host) : Prop where
  wired : h.state.Wired
  ids : ∀ p ∈ h.state.links, firstClientId ≤ p
  nextId : firstClientId ≤ h.nextId
  conn : ∀ p c, h.state.connOf p = some c → h.state.readers.lookup c ≠ none
  writer : ∀ w ∈ h.state.writers, h.state.readers.lookup w.1 ≠ none

theorem hosting_init : Hosting {} where
  wired := ⟨by simp [State.hosting], by simp [State.hosting], by simp [State.hosting, State.connOf],
    by simp [State.hosting]⟩
  ids := by simp [State.hosting]
  nextId := Int32.le_refl _
  conn := by simp [State.hosting, State.connOf]
  writer := by simp [State.hosting]

theorem Hosting.unused {h : Host} (hh : Hosting h) {c : Connection} (hc : h.state.readers.lookup c = none) :
    h.state.Unused c :=
  ⟨fun p hp => hh.conn p c hp hc, fun _ hw => hh.writer _ hw hc⟩

/-- Links only go, and new writers are on linked connections. -/
theorem Hosting.of_state {h h' : Host} (hh : Hosting h) (hw : h'.state.Wired)
    (hconn : ∀ p c, h'.state.connOf p = some c → h.state.connOf p = some c)
    (hreaders : h'.state.readers = h.state.readers) (hnext : h'.nextId = h.nextId)
    (hwriters : ∀ w ∈ h'.state.writers, w ∈ h.state.writers ∨ ∃ p, h.state.connOf p = some w.1) : Hosting h' where
  wired := hw
  ids := by
    intro p hp
    obtain ⟨c, hc⟩ := State.mem_links_iff.1 hp
    exact hh.ids p (State.mem_links_iff.2 ⟨c, hconn p c hc⟩)
  nextId := hnext ▸ hh.nextId
  conn := fun p c hc => hreaders ▸ hh.conn p c (hconn p c hc)
  writer := by
    intro w hmem
    rw [hreaders]
    rcases hwriters w hmem with hold | ⟨p, hp⟩
    · exact hh.writer w hold
    · exact hh.conn p w.1 hp

theorem Hosting.of_wire {h h' : Host} (hh : Hosting h) (hw : h.state.SameWire h'.state) (hnext : h'.nextId = h.nextId) :
    Hosting h' :=
  hh.of_state (hh.wired.of_wire hw) (fun p c hc => by rw [← hw.connOf]; exact hc) hw.readers hnext
    fun w hmem => .inl (hw.writers ▸ hmem)

/-- A new link, under an id that no link or another one had. -/
theorem Hosting.accept {h : Host} (hh : Hosting h) {c : Connection} (hc : h.state.readers.lookup c = none)
    (existing : List Int32) :
    Hosting { h with state := h.state.welcome existing h.nextId c, nextId := followingId h.nextId } := by
  have hreaders : ∀ d, (h.state.readers.lookup d ≠ none ∨ d = c) →
      (h.state.welcome existing h.nextId c).readers.lookup d ≠ none := by
    intro d hd
    rw [State.welcome_readers, List.lookup_append]
    rcases hd with hd | rfl
    · obtain ⟨q, hq⟩ := Option.ne_none_iff_exists'.1 hd
      simp [hq]
    · simp [hc]
  refine ⟨State.welcome_wired hh.wired (hh.unused hc) existing h.nextId, fun p hp => ?_,
    firstClientId_le_followingId _, fun p d hd => ?_, fun w hw => ?_⟩
  · rcases (State.welcome_mem_links existing h.nextId).1 hp with rfl | hp
    · exact hh.nextId
    · exact hh.ids p hp
  · simp only [State.welcome_connOf] at hd
    split at hd
    · exact hreaders d (.inr (Option.some.inj hd).symm)
    · exact hreaders d (.inl (hh.conn p d hd))
  · rcases State.welcome_writers hh.wired (hh.unused hc) existing h.nextId hw with hold | hnew | ⟨p, hp⟩
    · exact hreaders w.1 (.inl (hh.writer w hold))
    · exact hreaders w.1 (.inr hnew)
    · exact hreaders w.1 (.inl (hh.conn p w.1 hp))

theorem hosting_step {h h' : Host} {a : Host.Action} (hh : Hosting h) (hs : h.step a = some h') : Hosting h' := by
  cases a with
  | accept c existing =>
    simp only [Host.step] at hs
    split at hs
    next hc =>
      obtain rfl := Option.some.inj hs
      exact hh.accept hc.1 existing
    · simp at hs
  | send limits keys target channel mode data =>
    simp only [Host.step] at hs
    split at hs
    · obtain rfl := Option.some.inj hs
      obtain ⟨hw, hsends⟩ := State.send_sends hh.wired limits keys target channel mode data
      have hsame := State.send_same h.state limits keys target channel mode data
      refine hh.of_state hw (fun p c hc => by rw [← hsame.connOf]; exact hc) hsame.readers rfl fun w hmem => ?_
      rcases hsends.writers w hmem with hold | ⟨⟨p, -, hp⟩, -⟩
      · exact .inl hold
      · exact .inr ⟨p, hp⟩
    · simp at hs
  | disconnect peer =>
    obtain rfl := Option.some.inj hs
    exact hh.of_wire (State.dropLink_wire h.state peer) rfl
  | watch c =>
    simp only [Host.step] at hs
    split at hs
    · simp at hs
    split at hs
    · simp at hs
    · obtain rfl := Option.some.inj hs
      exact hh.of_wire (.refl _) rfl
  | lost peer others =>
    simp only [Host.step] at hs
    split at hs
    · split at hs
      · obtain rfl := Option.some.inj hs
        obtain ⟨hw, hsends⟩ := State.lost_sends others peer hh.wired
        refine hh.of_state hw (fun p c hc => ?_) (State.lost_readers ..) rfl fun w hmem => ?_
        · simp only [State.lost_connOf] at hc
          split at hc
          · simp at hc
          · exact hc
        · rcases hsends.writers w hmem with hold | ⟨⟨p, hp⟩, -⟩
          · exact .inl hold
          · exact .inr ⟨p, hp⟩
      · simp at hs
    · simp at hs
  | apply control =>
    simp only [Host.step] at hs
    split at hs
    · split at hs
      · obtain rfl := Option.some.inj hs
        exact hh.of_wire (State.apply_wire _ _) rfl
      · simp at hs
    · simp at hs
  | arrive b =>
    simp only [Host.step, Option.map_eq_some_iff, Prod.exists] at hs
    obtain ⟨arrivals, rep, -, rfl⟩ := hs
    rcases rep with - | (packet | control)
    · exact hh.of_wire (.refl _) rfl
    · exact hh.of_wire (State.emit_wire _ _) rfl
    · exact hh.of_wire (.refl _) rfl

/-! ## What a send on the host comes to -/

section
variable {h : Host} {keys : List Int32} {target : Int32}

/-- On the host, the links a send picks are those its target designates. -/
theorem Hosting.mem_picked (hh : Hosting h) (hkeys : keys.Perm h.state.links.keys) {p : Int32}
    (hp : p ∈ h.state.links) : p ∈ h.state.picked keys target ↔ Designated target p := by
  have hid := hh.ids p hp
  have hmem : p ∈ keys := hkeys.mem_iff.2 hp
  have h0 : (0 : Int32).toInt = 0 := rfl
  have h2 : firstClientId.toInt = 2 := rfl
  rw [Int32.le_iff_toInt_le, h2] at hid
  unfold State.picked Designated
  by_cases hle : target ≤ 0
  · rw [if_pos hle, List.mem_filter, decide_eq_true_eq]
    rw [Int32.le_iff_toInt_le, h0] at hle
    by_cases hzero : target = 0
    · subst hzero
      have hne : p ≠ 0 := by
        rintro rfl
        exact absurd hid (by decide)
      simp [hmem, hne]
    · have hlt : target < 0 := by
        rw [Int32.lt_iff_toInt_lt, h0]
        have : target.toInt ≠ 0 := fun he => hzero (Int32.toInt_inj.1 he)
        omega
      have hnot : ¬ 0 < target := by
        rw [Int32.lt_iff_toInt_lt, h0]
        omega
      simp [hmem, hzero, hlt, hnot]
  · rw [if_neg hle, List.mem_singleton]
    rw [Int32.le_iff_toInt_le, h0] at hle
    have hzero : target ≠ 0 := by
      rintro rfl
      exact hle le_rfl
    have hpos : 0 < target := by
      rw [Int32.lt_iff_toInt_lt, h0]
      omega
    have hnot : ¬ target < 0 := by
      rw [Int32.lt_iff_toInt_lt, h0]
      omega
    simp only [hzero, hpos, hnot, false_and, true_and, false_or]
    split
    · exact Iff.rfl
    next hun =>
      -- Nobody on the host has the host's id.
      have hhost : p ≠ hostId := by
        rintro rfl
        exact absurd hid (by decide)
      exact iff_of_false hhost fun he => hun (he ▸ hp)

theorem Hosting.routed (hh : Hosting h) (hkeys : keys.Perm h.state.links.keys) (limits : Limits) (channel : Int32)
    (mode : Mode) (data : Bytes) :
    Routed limits h.state (h.state.send limits keys target channel mode data) target channel mode data := by
  have hn : keys.Nodup := hkeys.nodup_iff.2 h.state.links.keys_nodup
  have hsame := State.send_same h.state limits keys target channel mode data
  have hhanded := State.send_handed hh.wired limits keys target channel mode data
  refine ⟨fun p => hsame.mem_links, fun p link hl hd => ?_, fun p hd => ?_, fun c hc => ?_⟩
  · have hconn : h.state.connOf p = some link.connection := State.connOf_eq_some.2 ⟨link, hl, rfl⟩
    have hp : p ∈ h.state.picked keys target := (hh.mem_picked hkeys (State.mem_links_iff.2 ⟨_, hconn⟩)).2 hd
    have hto := State.send_datagramsTo limits target channel mode data hh.wired hn hl hp
    have hone := hh.wired.filter_connOf (State.picked_nodup (s := h.state) target hn) hconn
    rw [if_pos hp] at hone
    constructor
    · intro hsmall
      refine ⟨?_, ?_, fun ch => ?_⟩
      · rw [hto, State.datagramOf, if_neg hsmall]
        rfl
      · rw [length_frameDatagram]
        simp only [State.CarriedReliably, not_or, Nat.not_lt] at hsmall
        exact hsmall.2
      · rw [hhanded, if_neg fun hc => hsmall hc.2, List.append_nil]
    · intro hbig
      refine ⟨?_, ?_, fun ch hch => ?_⟩
      · rw [hto, State.datagramOf, if_pos hbig, List.map_nil, List.append_nil]
      · rw [hhanded, if_pos ⟨rfl, hbig⟩, hone]
        rfl
      · rw [hhanded, if_neg fun hc => hch hc.1, List.append_nil]
  · by_cases hp : p ∈ h.state.links
    · exact State.send_lookup_other limits target channel mode data fun hpick => hd ((hh.mem_picked hkeys hp).1 hpick)
    · have hp' : p ∉ (h.state.send limits keys target channel mode data).links := fun hmem => hp (hsame.mem_links.1 hmem)
      rw [AList.lookup_eq_none.2 hp, AList.lookup_eq_none.2 hp']
  · have hnone : ∀ p ∈ h.state.picked keys target, h.state.connOf p ≠ some c := fun p hp hconn =>
      hc p hconn ((hh.mem_picked hkeys (State.mem_links_iff.2 ⟨c, hconn⟩)).1 hp)
    refine ⟨State.send_datagramsTo_other limits target channel mode data hn hnone, fun ch => ?_⟩
    rw [hhanded, List.filter_eq_nil_iff.2 fun p hp => by simpa using hnone p hp]
    simp

end

/-! ## Warnings over a run of sends -/

section
variable {s : State} {limits : Limits} {keys : List Int32} {target channel : Int32} {mode : Mode} {data : Bytes}

theorem mem_warnings {peers : List Int32} {w : (Int32 × Int32) × Event}
    (hw : w ∈ s.warnings limits peers channel mode data) :
    w.1.1 ∈ peers ∧ w.1.2 = channel ∧ ∃ link, s.links.lookup w.1.1 = some link ∧
      Oversize limits link.connection mode data ∧ channel ∉ link.warned := by
  obtain ⟨p, hp, hbind⟩ := List.mem_filterMap.1 hw
  obtain ⟨link, hl, hif⟩ := Option.bind_eq_some_iff.1 hbind
  split at hif
  next hcond =>
    obtain rfl := Option.some.inj hif
    exact ⟨hp, rfl, link, hl, hcond⟩
  · simp at hif

/-- A send warns about no link twice. -/
theorem warnings_nodup {peers : List Int32} (hn : peers.Nodup) :
    ((s.warnings limits peers channel mode data).map (·.1)).Nodup := by
  induction peers with
  | nil => simp [State.warnings]
  | cons p ps ih =>
    obtain ⟨hp, hps⟩ := List.nodup_cons.1 hn
    rw [State.warnings, List.filterMap_cons]
    split
    · exact ih hps
    next w hw =>
      have hw : w ∈ s.warnings limits [p] channel mode data := List.mem_filterMap.2 ⟨p, List.mem_singleton_self p, hw⟩
      have hpeer : w.1.1 = p := List.mem_singleton.1 (mem_warnings hw).1
      rw [List.map_cons, List.nodup_cons]
      refine ⟨fun hmem => ?_, ih hps⟩
      obtain ⟨w', hw', he⟩ := List.mem_map.1 hmem
      have hpeer' : w'.1.1 ∈ ps := (mem_warnings hw').1
      rw [he, hpeer] at hpeer'
      exact hp hpeer'

/-- A link that was sent to keeps the channels warned about, and has the
channel among them if it was sent more than fits a datagram. -/
theorem send_warned (hn : keys.Nodup) {p : Int32} {link : Link} (hl : s.links.lookup p = some link) :
    ∃ link', (s.send limits keys target channel mode data).links.lookup p = some link' ∧
      link.warned ⊆ link'.warned ∧
      (p ∈ s.picked keys target → Oversize limits link.connection mode data → channel ∈ link'.warned) := by
  by_cases hp : p ∈ s.picked keys target
  · have hown := State.foldl_lookup_own
      (f := fun s p => s.sendOne limits p channel mode data)
      (P := fun before after => ∀ link, before = some link → ∃ link', after = some link' ∧
        link.warned ⊆ link'.warned ∧ (Oversize limits link.connection mode data → channel ∈ link'.warned))
      (fun s p q h => State.sendOne_lookup_ne limits channel mode data h)
      (fun s p link hl => by
        obtain ⟨⟨link', hl', hwarned⟩, -⟩ := State.sendOne_own limits channel mode data hl
        refine ⟨link', hl', ?_, fun hover => ?_⟩
        · rw [hwarned]
          split
          · exact Finset.subset_insert _ _
          · exact Finset.Subset.refl _
        · rw [hwarned, if_pos hover]
          exact Finset.mem_insert_self _ _)
      (State.picked_nodup target hn) hp s
    rw [State.send_eq_foldl]
    obtain ⟨link', hl', hsub, hover⟩ := hown link hl
    exact ⟨link', hl', hsub, fun _ => hover⟩
  · rw [State.send_lookup_other limits target channel mode data hp]
    exact ⟨link, hl, Finset.Subset.refl _, fun hpick => absurd hpick hp⟩

end

/-- Every warning so far is on the events and about a link and channel of its
own, which the link remembers. -/
structure Sender.Warned (start : State) (x : Sender) : Prop where
  events : x.state.events = start.events ++ x.warnings.map (·.2)
  once : (x.warnings.map (·.1)).Nodup
  kept : ∀ w ∈ x.warnings, ∃ link, x.state.links.lookup w.1.1 = some link ∧ w.1.2 ∈ link.warned

theorem Sender.warned_step {start : State} {x x' : Sender} {a : SendCall} (hx : x.Warned start)
    (h : x.step a = some x') : x'.Warned start := by
  unfold Sender.step at h
  split at h
  next hkeys =>
    obtain rfl := Option.some.inj h
    have hn : a.keys.Nodup := hkeys.nodup_iff.2 x.state.links.keys_nodup
    refine ⟨?_, ?_, fun w hw => ?_⟩
    · rw [State.send_events _ _ _ _ _ hn, hx.events, List.map_append, List.append_assoc]
    · rw [List.map_append, List.nodup_append]
      refine ⟨hx.once, warnings_nodup (State.picked_nodup _ hn), ?_⟩
      rintro key hold key' hnew rfl
      obtain ⟨w, hw, rfl⟩ := List.mem_map.1 hold
      obtain ⟨w', hw', he⟩ := List.mem_map.1 hnew
      obtain ⟨-, hch, link, hl, -, hnot⟩ := mem_warnings hw'
      obtain ⟨link₀, hl₀, hin⟩ := hx.kept w hw
      rw [he, hl₀] at hl
      obtain rfl := Option.some.inj hl
      rw [he] at hch
      exact hnot (hch ▸ hin)
    · rcases List.mem_append.1 hw with hw | hw
      · obtain ⟨link, hl, hin⟩ := hx.kept w hw
        obtain ⟨link', hl', hsub, -⟩ := send_warned hn hl
        exact ⟨link', hl', hsub hin⟩
      · obtain ⟨hp, hch, link, hl, hover, -⟩ := mem_warnings hw
        obtain ⟨link', hl', -, hin⟩ := send_warned hn hl
        exact ⟨link', hl', hch ▸ hin hp hover⟩
  · simp at h

/-- **Routing on the host.** In every state a hosting session comes to, a send
hands one copy of its payload to each link its target designates and nothing
to any other; and over any run of sends from there, the events are the
warnings, no two of them about one link and channel. -/
theorem host_send_exact {as : List Host.Action} {h : Host} (hrun : Machine.run Host.step {} as = some h) :
    (∀ limits keys target channel mode data, keys.Perm h.state.links.keys →
      Routed limits h.state (h.state.send limits keys target channel mode data) target channel mode data) ∧
    ∀ calls x, Machine.run Sender.step { state := h.state } calls = some x →
      x.state.events = h.state.events ++ x.warnings.map (·.2) ∧ (x.warnings.map (·.1)).Nodup := by
  have hh : Hosting h := Machine.run_invariant (fun _ _ _ hh hs => hosting_step hh hs) hrun hosting_init
  refine ⟨fun limits keys target channel mode data hkeys => hh.routed hkeys limits channel mode data,
    fun calls x hx => ?_⟩
  have hw : x.Warned h.state := Machine.run_invariant (fun _ _ _ hx hs => Sender.warned_step hx hs) hx
    ⟨by simp, by simp, by simp⟩
  exact ⟨hw.events, hw.once⟩

/-- With clients 2 and 3 linked, a send to all but 2 over paths that take no
datagram. -/
theorem host_send_exact_two : ∃ h, Machine.run Host.step {} [.accept 0 [], .accept 1 [2]] = some h ∧
    Routed (fun _ => none) h.state (h.state.send (fun _ => none) [2, 3] (-2) 0 .unreliable [7]) (-2) 0 .unreliable [7] ∧
    Designated (-2) 3 ∧ ¬ Designated (-2) 2 := by
  have hrun : ((Machine.run Host.step {} [.accept 0 [], .accept 1 [2]]).map fun h => h.state.links.keys) =
      some [3, 2] := by
    decide +kernel
  obtain ⟨h, hs, hkeys⟩ := Option.map_eq_some_iff.1 hrun
  have hperm : [2, 3].Perm h.state.links.keys := by
    rw [hkeys]
    exact List.Perm.swap 3 2 []
  exact ⟨h, hs, (host_send_exact hs).1 _ _ _ _ _ _ hperm, by decide, by decide⟩

end Gdiroh.Session
