/-
What the session task hands to the stream writers, per connection and
channel (`handed`), method by method.

A link keeps the writer of each channel it has used, so one connection and
channel never has two writers (`Wired`): all of its frames go through one
queue, in the order of the calls.
-/
import Gdiroh.Lib.Logs
import Gdiroh.Session.StateFacts

namespace Gdiroh.Session
namespace State

/-- The frames handed to `write_reliable` for a connection and channel,
oldest first. -/
def handed (s : State) (c : Connection) (channel : Int32) : List Bytes :=
  s.queued.filterMap fun q => if s.writers[q.1]? = some (c, channel) then some q.2 else none

/-- The frames sent to one writer's queue, oldest first. -/
def queuedTo (s : State) (writer : Nat) : List Bytes :=
  s.queued.filterMap fun q => if q.1 = writer then some q.2 else none

/-- Each link's senders are its own connection's writers, one to a channel,
and no two links share a connection. -/
structure Wired (s : State) : Prop where
  queued : ∀ q ∈ s.queued, q.1 < s.writers.length
  writer : ∀ p link, s.links.lookup p = some link → ∀ channel w,
    link.reliable.lookup channel = some w ↔ s.writers[w]? = some (link.connection, channel)
  distinct : ∀ p q c, s.connOf p = some c → s.connOf q = some c → p = q
  unique : s.writers.Nodup

theorem Wired.of_wire {s t : State} (h : Wired s) (hw : SameWire s t) : Wired t where
  queued := by rw [hw.queued, hw.writers]; exact h.queued
  writer := by rw [hw.links, hw.writers]; exact h.writer
  distinct := by rw [hw.connOf]; exact h.distinct
  unique := by rw [hw.writers]; exact h.unique

theorem SameWire.handed {s t : State} (h : SameWire s t) (c : Connection) (channel : Int32) :
    t.handed c channel = s.handed c channel := by
  simp [State.handed, h.queued, h.writers]

/-- With one writer to a connection and channel, its queue is all there is. -/
theorem Wired.handed_eq {s : State} (h : Wired s) {w : Nat} {c : Connection} {channel : Int32}
    (hw : s.writers[w]? = some (c, channel)) : s.handed c channel = s.queuedTo w := by
  unfold handed queuedTo
  refine List.filterMap_congr fun q hq => ?_
  have hiff : s.writers[q.1]? = some (c, channel) ↔ q.1 = w := by
    constructor
    · intro he
      exact (List.getElem?_inj (h.queued q hq) h.unique).1 (he.trans hw.symm)
    · rintro rfl
      exact hw
  simp [hiff]

theorem handed_eq_nil {s : State} {c : Connection} {channel : Int32} (h : (c, channel) ∉ s.writers) :
    s.handed c channel = [] := by
  unfold handed
  rw [List.filterMap_eq_nil_iff]
  intro q _
  simp only [ite_eq_right_iff, reduceCtorEq, imp_false]
  exact fun he => h (List.mem_of_getElem? he)

/-! ## `write_reliable` -/

/-- A state in which one link was changed in place, and its channels were
not. -/
theorem Wired.insert_link {s : State} (h : Wired s) {peer : Int32} {link new : Link}
    (hl : s.links.lookup peer = some link) (hc : new.connection = link.connection)
    (hr : new.reliable = link.reliable) : Wired { s with links := s.links.insert peer new } where
  queued := h.queued
  writer := by
    intro p l hp
    rw [lookup_insert_link] at hp
    split at hp
    · simp only [Option.some.injEq] at hp
      subst hp
      rw [hc, hr]
      exact h.writer peer link hl
    · exact h.writer p l hp
  distinct := by
    rw [connOf_insert_link hl hc]
    exact h.distinct
  unique := h.unique

theorem writeReliable_wired {s : State} (h : Wired s) (peer channel : Int32) (data : Bytes) :
    Wired (s.writeReliable peer channel data) := by
  unfold writeReliable
  split
  · exact h
  next link hl =>
  split
  · next w hw =>
    have hlt : w < s.writers.length :=
      (List.getElem?_eq_some_iff.1 ((h.writer peer link hl channel w).1 hw)).1
    refine ⟨?_, h.writer, h.distinct, h.unique⟩
    intro q hq
    rcases List.mem_append.1 hq with hq | hq
    · exact h.queued q hq
    · rw [List.mem_singleton.1 hq]; exact hlt
  · next hnone =>
    have hfresh : (link.connection, channel) ∉ s.writers := by
      intro hm
      obtain ⟨w, hw⟩ := List.mem_iff_getElem?.1 hm
      rw [(h.writer peer link hl channel w).2 hw] at hnone
      simp at hnone
    refine ⟨?_, ?_, ?_, ?_⟩
    · intro q hq
      simp only [List.length_append, List.length_singleton]
      rcases List.mem_append.1 hq with hq | hq
      · have := h.queued q hq
        omega
      · rw [List.mem_singleton.1 hq]
        omega
    · intro p l hp ch w
      dsimp only at hp ⊢
      rw [lookup_insert_link] at hp
      rw [Logs.getElem?_concat, Prod.mk.injEq]
      split at hp
      · -- The link written to: the new channel's writer is the one just added.
        simp only [Option.some.injEq] at hp
        subst hp
        dsimp only
        by_cases hch : ch = channel
        · subst hch
          have hno : s.writers[w]? ≠ some (link.connection, ch) := fun hw => hfresh (List.mem_of_getElem? hw)
          simp [AList.lookup_insert, hno, eq_comm]
        · simp [AList.lookup_insert_ne hch, h.writer peer link hl ch w, Ne.symm hch]
      · next hne =>
        -- Another link is on another connection.
        have hconn : l.connection ≠ link.connection := by
          intro he
          exact hne (h.distinct p peer link.connection (connOf_eq_some.2 ⟨l, hp, he⟩)
            (connOf_eq_some.2 ⟨link, hl, rfl⟩))
        simp [h.writer p l hp ch w, Ne.symm hconn]
    · intro p q c
      have hsame := (writeReliable_same s peer channel data).connOf
      simp only [writeReliable, hl, hnone] at hsame
      rw [hsame]
      exact h.distinct p q c
    · exact List.nodup_append.2 ⟨h.unique, List.nodup_singleton _, by
        rintro x hx y hy rfl
        rw [List.mem_singleton.1 hy] at hx
        exact hfresh hx⟩

/-- **One call, one frame.** `write_reliable` adds its frame to the queue of
its own connection and channel, and to no other. -/
theorem writeReliable_handed {s : State} (h : Wired s) (peer channel : Int32) (data : Bytes) (c : Connection)
    (ch : Int32) : (s.writeReliable peer channel data).handed c ch =
      s.handed c ch ++ if s.connOf peer = some c ∧ ch = channel then [data] else [] := by
  unfold writeReliable
  split
  · next hl => simp [connOf, hl]
  next link hl =>
  have hiff : (s.connOf peer = some c ∧ ch = channel) ↔ some (link.connection, channel) = some (c, ch) := by
    simp [connOf, hl, eq_comm]
  simp only [hiff]
  split
  · next w hw =>
    have hwriter := (h.writer peer link hl channel w).1 hw
    simp only [handed, List.filterMap_append, List.filterMap_cons, List.filterMap_nil, hwriter]
    split <;> simp_all
  · have hold : (s.queued.filterMap fun q =>
        if (s.writers ++ [(link.connection, channel)])[q.1]? = some (c, ch) then some q.2 else none) =
        s.handed c ch := by
      unfold handed
      refine List.filterMap_congr fun q hq => ?_
      rw [List.getElem?_append_left (h.queued q hq)]
    simp only [handed, List.filterMap_append, List.filterMap_cons, List.filterMap_nil,
      List.getElem?_concat_length]
    rw [hold]
    split <;> simp_all [handed]

/-- Handing one frame to each of a list of peers, on the streams of `keep`. -/
theorem foldl_handed {f : State → Int32 → State} {data : Bytes} {keep : Connection → Int32 → Prop}
    [∀ c ch, Decidable (keep c ch)] (hsame : ∀ s p, SameMembers s (f s p))
    (hf : ∀ s p, Wired s → Wired (f s p) ∧ ∀ c ch,
      (f s p).handed c ch = s.handed c ch ++ if s.connOf p = some c ∧ keep c ch then [data] else [])
    {s : State} (h : Wired s) (peers : List Int32) (c : Connection) (ch : Int32) :
    (peers.foldl f s).handed c ch =
      s.handed c ch ++ if keep c ch then (peers.filter (s.connOf · = some c)).map fun _ => data else [] := by
  induction peers generalizing s with
  | nil => simp
  | cons p ps ih =>
    obtain ⟨hw, hh⟩ := hf s p h
    rw [List.foldl_cons, ih hw, hh, (hsame s p).connOf, List.append_assoc]
    by_cases hk : keep c ch <;> by_cases hp : s.connOf p = some c <;> simp [hk, hp]

/-! ## Links that come and go -/

theorem addLink_handed (s : State) (peer : Int32) (c : Connection) :
    (s.addLink peer c).handed = s.handed := rfl

theorem addLink_connOf (s : State) (peer : Int32) (c : Connection) (p : Int32) :
    (s.addLink peer c).connOf p = if p = peer then some c else s.connOf p := by
  simp only [connOf, addLink, lookup_insert_link]
  split <;> rfl

/-- A connection nobody has used yet. -/
structure Unused (s : State) (c : Connection) : Prop where
  link : ∀ p, s.connOf p ≠ some c
  writer : ∀ channel, (c, channel) ∉ s.writers

theorem addLink_wired {s : State} (h : Wired s) {c : Connection} (hc : Unused s c) (peer : Int32) :
    Wired (s.addLink peer c) where
  queued := h.queued
  writer := by
    intro p link hp channel w
    simp only [addLink, lookup_insert_link] at hp
    split at hp
    · simp only [Option.some.injEq] at hp
      subst hp
      simp only [AList.lookup_empty, reduceCtorEq, false_iff]
      exact fun hw => hc.writer channel (List.mem_of_getElem? hw)
    · exact h.writer p link hp channel w
  distinct := by
    intro p q d hp hq
    rw [addLink_connOf] at hp hq
    split at hp <;> split at hq
    · next hp' hq' => rw [hp', hq']
    · simp only [Option.some.injEq] at hp
      exact absurd (hp ▸ hq) (hc.link q)
    · simp only [Option.some.injEq] at hq
      exact absurd (hq ▸ hp) (hc.link p)
    · exact h.distinct p q d hp hq
  unique := h.unique

/-- The links without one peer. -/
def unlink (s : State) (peer : Int32) : State :=
  { s with links := s.links.erase peer, connections := s.connections.erase peer }

theorem unlink_connOf (s : State) (peer p : Int32) :
    (s.unlink peer).connOf p = if p = peer then none else s.connOf p := by
  simp only [connOf, unlink]
  split
  · next hp => subst hp; simp
  · next hp => rw [AList.lookup_erase_ne hp]

theorem unlink_wired {s : State} (h : Wired s) (peer : Int32) : Wired (s.unlink peer) where
  queued := h.queued
  writer := by
    intro p link hp
    by_cases hpp : p = peer
    · subst hpp
      simp [unlink] at hp
    · rw [unlink, AList.lookup_erase_ne hpp] at hp
      exact h.writer p link hp
  distinct := by
    intro p q c hp hq
    rw [unlink_connOf] at hp hq
    split at hp
    · simp at hp
    split at hq
    · simp at hq
    exact h.distinct p q c hp hq
  unique := h.unique

/-- `lost`, for a peer that is linked. -/
theorem lost_eq {s : State} {peer : Int32} (h : peer ∈ s.links) (others : List Int32) :
    s.lost others peer =
      if s.isHost then others.foldl (fun s other => s.controlTo other (.peerLeft peer)) ((s.unlink peer).forget peer)
      else if peer = hostId then ((s.unlink peer).forget peer).emit (.closed "host disconnected")
      else (s.unlink peer).forget peer := by
  have hhost : ((s.unlink peer).forget peer).isHost = s.isHost := (forget_wire _ _).isHost
  simp only [lost, h, ite_true]
  rw [show ({ s with links := s.links.erase peer, connections := s.connections.erase peer } : State) =
    s.unlink peer from rfl, hhost]

theorem lost_of_not_mem {s : State} {peer : Int32} (h : peer ∉ s.links) (others : List Int32) :
    s.lost others peer = s := by
  simp [lost, h]

/-! ## Writers keep their places -/

theorem writeReliable_writers_grows (s : State) (peer channel : Int32) (data : Bytes) :
    s.writers <+: (s.writeReliable peer channel data).writers := by
  unfold writeReliable
  split
  · exact List.prefix_refl _
  split
  · exact List.prefix_refl _
  · exact List.prefix_append ..

theorem foldl_writers_grows {f : State → Int32 → State} (hf : ∀ s p, s.writers <+: (f s p).writers)
    (peers : List Int32) (s : State) : s.writers <+: (peers.foldl f s).writers := by
  induction peers generalizing s with
  | nil => exact List.prefix_refl _
  | cons p ps ih => exact (hf s p).trans (ih _)

theorem sendOne_writers_grows (s : State) (limits : Limits) (peer channel : Int32) (mode : Mode) (data : Bytes) :
    s.writers <+: (s.sendOne limits peer channel mode data).writers := by
  have hdatagram : s.writers <+: (s.writeDatagram limits peer channel mode data).writers := by
    unfold writeDatagram
    split
    · exact List.prefix_refl _
    dsimp only
    split
    · refine List.IsPrefix.trans ?_ (writeReliable_writers_grows ..)
      unfold warnOversize
      split
      · exact List.prefix_refl _
      · exact List.prefix_refl _
    · exact List.prefix_refl _
  unfold sendOne
  split
  · exact writeReliable_writers_grows ..
  · exact hdatagram
  · exact hdatagram

theorem send_writers_grows (s : State) (limits : Limits) (keys : List Int32) (target channel : Int32) (mode : Mode)
    (data : Bytes) : s.writers <+: (s.send limits keys target channel mode data).writers := by
  unfold send
  split
  · exact foldl_writers_grows (fun s p => sendOne_writers_grows s limits p channel mode data) _ s
  · exact sendOne_writers_grows ..

theorem foldl_controlTo_writers_grows (s : State) (peers : List Int32) (c : Control) :
    s.writers <+: (peers.foldl (fun s p => s.controlTo p c) s).writers :=
  foldl_writers_grows (fun s p => writeReliable_writers_grows s p controlChannel c.encode) peers s

/-! ## What a send hands over -/

/-- Every frame and datagram that `t` has and `s` has not carries `data` on
`channel` and goes to a connection in `dest`. -/
structure Sends (s t : State) (dest : Connection → Prop) (channel : Int32) (data : Bytes) : Prop where
  handed : ∀ c ch, ∃ new, t.handed c ch = s.handed c ch ++ new ∧ ∀ f ∈ new, f = data ∧ ch = channel ∧ dest c
  datagrams : ∃ new, t.datagrams = s.datagrams ++ new ∧
    ∀ d ∈ new, dest d.1 ∧ ∃ sequence, d.2 = frameDatagram channel sequence data
  writers : ∀ w ∈ t.writers, w ∈ s.writers ∨ dest w.1 ∧ w.2 = channel

theorem Sends.refl (s : State) {dest : Connection → Prop} {channel : Int32} {data : Bytes} :
    Sends s s dest channel data :=
  ⟨fun _ _ => ⟨[], by simp, by simp⟩, ⟨[], by simp, by simp⟩, fun _ => .inl⟩

theorem Sends.trans {s t u : State} {dest : Connection → Prop} {channel : Int32} {data : Bytes}
    (h₁ : Sends s t dest channel data) (h₂ : Sends t u dest channel data) : Sends s u dest channel data := by
  refine ⟨fun c ch => ?_, ?_, fun w hw => ?_⟩
  · obtain ⟨new₁, he₁, hn₁⟩ := h₁.handed c ch
    obtain ⟨new₂, he₂, hn₂⟩ := h₂.handed c ch
    refine ⟨new₁ ++ new₂, by rw [he₂, he₁, List.append_assoc], fun f hf => ?_⟩
    exact (List.mem_append.1 hf).elim (hn₁ f) (hn₂ f)
  · obtain ⟨new₁, he₁, hn₁⟩ := h₁.datagrams
    obtain ⟨new₂, he₂, hn₂⟩ := h₂.datagrams
    refine ⟨new₁ ++ new₂, by rw [he₂, he₁, List.append_assoc], fun d hd => ?_⟩
    exact (List.mem_append.1 hd).elim (hn₁ d) (hn₂ d)
  · rcases h₂.writers w hw with hw | hw
    · exact h₁.writers w hw
    · exact .inr hw

theorem Sends.mono {s t : State} {dest dest' : Connection → Prop} {channel : Int32} {data : Bytes}
    (h : Sends s t dest channel data) (hto : ∀ c, dest c → dest' c) : Sends s t dest' channel data := by
  refine ⟨fun c ch => ?_, ?_, fun w hw => (h.writers w hw).imp_right fun hw => ⟨hto w.1 hw.1, hw.2⟩⟩
  · obtain ⟨new, he, hn⟩ := h.handed c ch
    exact ⟨new, he, fun f hf => ⟨(hn f hf).1, (hn f hf).2.1, hto c (hn f hf).2.2⟩⟩
  · obtain ⟨new, he, hn⟩ := h.datagrams
    exact ⟨new, he, fun d hd => ⟨hto d.1 (hn d hd).1, (hn d hd).2⟩⟩

theorem writeReliable_sends {s : State} (h : Wired s) (peer channel : Int32) (data : Bytes) :
    Sends s (s.writeReliable peer channel data) (s.connOf peer = some ·) channel data := by
  refine ⟨fun c ch => ⟨_, writeReliable_handed h peer channel data c ch, fun f hf => ?_⟩,
    ⟨[], by simp, by simp⟩, fun w hw => ?_⟩
  · split at hf
    · next hcond => exact ⟨List.mem_singleton.1 hf, hcond.2, hcond.1⟩
    · simp at hf
  · unfold writeReliable at hw
    split at hw
    · exact .inl hw
    next link hl =>
    split at hw
    · exact .inl hw
    · refine (List.mem_append.1 hw).imp_right fun hw => ?_
      rw [List.mem_singleton.1 hw]
      exact ⟨connOf_eq_some.2 ⟨link, hl, rfl⟩, rfl⟩

theorem warnOversize_wired {s : State} (h : Wired s) {peer : Int32} (channel : Int32) (data : Bytes) (limit : Nat)
    {link new : Link} (hl : s.links.lookup peer = some link) (hc : new.connection = link.connection)
    (hr : new.reliable = link.reliable) : Wired (s.warnOversize peer channel data limit new) := by
  unfold warnOversize
  split
  · exact h.insert_link hl hc hr
  · have hw : Wired { s with links := s.links.insert peer { new with warned := insert channel new.warned } } :=
      h.insert_link hl hc hr
    exact hw.of_wire (emit_wire _ _)

theorem warnOversize_handed (s : State) (peer channel : Int32) (data : Bytes) (limit : Nat) (link : Link) :
    (s.warnOversize peer channel data limit link).handed = s.handed ∧
      (s.warnOversize peer channel data limit link).datagrams = s.datagrams ∧
      (s.warnOversize peer channel data limit link).writers = s.writers := by
  unfold warnOversize
  split <;> exact ⟨rfl, rfl, rfl⟩

/-- A datagram write hands its payload to its own link's connection: as one
datagram, or as one frame. -/
theorem writeDatagram_sends {s : State} (h : Wired s) (limits : Limits) (peer channel : Int32) (mode : Mode)
    (data : Bytes) : Wired (s.writeDatagram limits peer channel mode data) ∧
      Sends s (s.writeDatagram limits peer channel mode data) (s.connOf peer = some ·) channel data := by
  unfold writeDatagram
  split
  · exact ⟨h, .refl s⟩
  next link hl =>
  dsimp only
  split
  · have hw := warnOversize_wired h channel data ((limits link.connection).getD 0) hl
      (count_connection link channel mode) (count_reliable link channel mode)
    have hsame := warnOversize_same channel data ((limits link.connection).getD 0) hl
      (count_connection link channel mode)
    have hkept := warnOversize_handed s peer channel data ((limits link.connection).getD 0)
      (link.count channel mode)
    refine ⟨writeReliable_wired hw .., ?_⟩
    have hsend := writeReliable_sends hw peer channel data
    rw [hsame.connOf] at hsend
    exact ⟨hkept.1 ▸ hsend.handed, hkept.2.1 ▸ hsend.datagrams, hkept.2.2 ▸ hsend.writers⟩
  · refine ⟨⟨h.queued, (h.insert_link hl (count_connection ..) (count_reliable ..)).writer,
      (h.insert_link hl (count_connection ..) (count_reliable ..)).distinct, h.unique⟩,
      fun c ch => ⟨[], by simp [handed], by simp⟩, ⟨[_], rfl, ?_⟩, fun _ => .inl⟩
    intro d hd
    rw [List.mem_singleton.1 hd]
    exact ⟨connOf_eq_some.2 ⟨link, hl, rfl⟩, _, rfl⟩

theorem sendOne_sends {s : State} (h : Wired s) (limits : Limits) (peer channel : Int32) (mode : Mode)
    (data : Bytes) : Wired (s.sendOne limits peer channel mode data) ∧
      Sends s (s.sendOne limits peer channel mode data) (s.connOf peer = some ·) channel data := by
  unfold sendOne
  split
  · exact ⟨writeReliable_wired h .., writeReliable_sends h ..⟩
  · exact writeDatagram_sends h ..
  · exact writeDatagram_sends h ..

/-- A payload goes out on a stream: it was to, or it does not fit a
datagram. -/
def CarriedReliably (limits : Limits) (c : Connection) (mode : Mode) (data : Bytes) : Prop :=
  mode = .reliable ∨ (limits c).getD 0 < datagramHeader + data.length

instance (limits : Limits) (c : Connection) (mode : Mode) (data : Bytes) :
    Decidable (CarriedReliably limits c mode data) :=
  inferInstanceAs (Decidable (_ ∨ _))

theorem writeDatagram_handed {s : State} (h : Wired s) (limits : Limits) (peer channel : Int32) (mode : Mode)
    (data : Bytes) (c : Connection) (ch : Int32) : (s.writeDatagram limits peer channel mode data).handed c ch =
      s.handed c ch ++
        if s.connOf peer = some c ∧ ch = channel ∧ (limits c).getD 0 < datagramHeader + data.length then [data]
        else [] := by
  unfold writeDatagram
  split
  · next hl => simp [connOf, hl]
  next link hl =>
  have hconn : s.connOf peer = some link.connection := connOf_eq_some.2 ⟨link, hl, rfl⟩
  rw [hconn]
  dsimp only
  rw [length_frameDatagram]
  split
  · next hbig =>
    have hw := warnOversize_wired h channel data ((limits link.connection).getD 0) hl
      (count_connection link channel mode) (count_reliable link channel mode)
    have hsame := warnOversize_same channel data ((limits link.connection).getD 0) hl
      (count_connection link channel mode)
    rw [writeReliable_handed hw, (warnOversize_handed ..).1, hsame.connOf, hconn]
    by_cases hc : link.connection = c
    · subst hc; simp [hbig]
    · simp [hc]
  · next hsmall =>
    have hno : ¬ (some link.connection = some c ∧ ch = channel ∧
        (limits c).getD 0 < datagramHeader + data.length) := by
      intro hyes
      obtain ⟨hc, -, hlt⟩ := hyes
      rw [← Option.some.inj hc] at hlt
      exact hsmall hlt
    rw [if_neg hno, List.append_nil]
    rfl

theorem sendOne_handed {s : State} (h : Wired s) (limits : Limits) (peer channel : Int32) (mode : Mode)
    (data : Bytes) (c : Connection) (ch : Int32) : (s.sendOne limits peer channel mode data).handed c ch =
      s.handed c ch ++
        if s.connOf peer = some c ∧ (ch = channel ∧ CarriedReliably limits c mode data) then [data] else [] := by
  unfold sendOne CarriedReliably
  split
  · simp [writeReliable_handed h]
  · simp [writeDatagram_handed h]
  · simp [writeDatagram_handed h]

/-- Walking a list of peers, one write to each. -/
theorem foldl_sends {f : State → Int32 → State} {channel : Int32} {data : Bytes}
    (hsame : ∀ s p, SameMembers s (f s p))
    (hf : ∀ s p, Wired s → Wired (f s p) ∧ Sends s (f s p) (s.connOf p = some ·) channel data)
    {s : State} (h : Wired s) (peers : List Int32) :
    Wired (peers.foldl f s) ∧
      Sends s (peers.foldl f s) (fun c => ∃ p ∈ peers, s.connOf p = some c) channel data := by
  induction peers generalizing s with
  | nil => exact ⟨h, .refl s⟩
  | cons p ps ih =>
    rw [List.foldl_cons]
    obtain ⟨hw₁, hs₁⟩ := hf s p h
    obtain ⟨hw₂, hs₂⟩ := ih hw₁
    rw [(hsame s p).connOf] at hs₂
    refine ⟨hw₂, (hs₁.mono fun c hc => ⟨p, by simp, hc⟩).trans (hs₂.mono ?_)⟩
    rintro c ⟨q, hq, hc⟩
    exact ⟨q, by simp [hq], hc⟩

/-- The links a target picks, among those the walk over `links` yields. -/
def picked (s : State) (keys : List Int32) (target : Int32) : List Int32 :=
  if target ≤ 0 then keys.filter (· ≠ -target) else [if target ∈ s.links then target else hostId]

/-- **What `send` hands over** goes to the links its target picks, and is
nothing but the payload on the channel it was given. -/
theorem send_sends {s : State} (h : Wired s) (limits : Limits) (keys : List Int32) (target channel : Int32)
    (mode : Mode) (data : Bytes) : Wired (s.send limits keys target channel mode data) ∧
      Sends s (s.send limits keys target channel mode data)
        (fun c => ∃ p ∈ s.picked keys target, s.connOf p = some c) channel data := by
  have hwalk := fun peers => foldl_sends (fun s p => sendOne_same s limits p channel mode data)
    (fun s p hs => sendOne_sends hs limits p channel mode data) h peers
  unfold send picked
  split
  · exact hwalk _
  · exact hwalk [_]

/-- **Exactly what `send` puts on a stream**: one copy of the payload for
each link its target picks on the connection, when it goes out reliably. -/
theorem send_handed {s : State} (h : Wired s) (limits : Limits) (keys : List Int32) (target channel : Int32)
    (mode : Mode) (data : Bytes) (c : Connection) (ch : Int32) :
    (s.send limits keys target channel mode data).handed c ch = s.handed c ch ++
      if ch = channel ∧ CarriedReliably limits c mode data then
        ((s.picked keys target).filter (s.connOf · = some c)).map fun _ => data
      else [] := by
  have hone : ∀ s p, Wired s → Wired (s.sendOne limits p channel mode data) ∧ ∀ c ch,
      (s.sendOne limits p channel mode data).handed c ch = s.handed c ch ++
        if s.connOf p = some c ∧ (ch = channel ∧ CarriedReliably limits c mode data) then [data] else [] :=
    fun s p hs => ⟨(sendOne_sends hs limits p channel mode data).1, sendOne_handed hs limits p channel mode data⟩
  have hwalk := fun peers => foldl_handed (fun s p => sendOne_same s limits p channel mode data) hone h peers c ch
  unfold send picked
  split
  · exact hwalk _
  · exact hwalk [_]

/-! ## Membership messages -/

/-- A message to each of a list of peers. -/
def tell (s : State) (peers : List Int32) (c : Control) : State :=
  peers.foldl (fun s p => s.controlTo p c) s

theorem tell_same (s : State) (peers : List Int32) (c : Control) : SameMembers s (s.tell peers c) :=
  foldl_same (fun s p => controlTo_same s p c) peers s

theorem tell_events (s : State) (peers : List Int32) (c : Control) : (s.tell peers c).events = s.events :=
  foldl_controlTo_events peers c s

theorem tell_sends {s : State} (h : Wired s) (peers : List Int32) (c : Control) :
    Wired (s.tell peers c) ∧
      Sends s (s.tell peers c) (fun d => ∃ p ∈ peers, s.connOf p = some d) controlChannel c.encode :=
  foldl_sends (fun s p => controlTo_same s p c)
    (fun _ p hs => ⟨writeReliable_wired hs p _ _, writeReliable_sends hs p _ _⟩) h peers

theorem tell_datagrams (s : State) (peers : List Int32) (c : Control) :
    (s.tell peers c).datagrams = s.datagrams := by
  unfold tell
  induction peers generalizing s with
  | nil => rfl
  | cons p ps ih =>
    rw [List.foldl_cons, ih]
    exact writeReliable_datagrams ..

/-- Among distinct peers, one at most is on a connection. -/
theorem Wired.filter_connOf {s : State} (h : Wired s) {peers : List Int32} (hn : peers.Nodup) {p : Int32}
    {d : Connection} (hp : s.connOf p = some d) :
    peers.filter (s.connOf · = some d) = if p ∈ peers then [p] else [] := by
  have hiff : ∀ q, s.connOf q = some d ↔ q = p := fun q =>
    ⟨fun hq => h.distinct q p d hq hp, fun hq => hq ▸ hp⟩
  simp only [hiff]
  rw [show (peers.filter fun q => decide (q = p)) = peers.filter (· == p) from rfl, List.filter_beq]
  split
  · next hm => rw [List.count_eq_one_of_mem hn hm]; rfl
  · next hm => rw [List.count_eq_zero_of_not_mem hm]; rfl

/-- On the control channel of a connection, the message is added once when
its peer is among those told. -/
theorem tell_handed {s : State} (h : Wired s) {peers : List Int32} (hn : peers.Nodup) {p : Int32}
    {d : Connection} (hp : s.connOf p = some d) (c : Control) : (s.tell peers c).handed d controlChannel =
      s.handed d controlChannel ++ if p ∈ peers then [c.encode] else [] := by
  have htell : (s.tell peers c).handed d controlChannel = s.handed d controlChannel ++
      if controlChannel = controlChannel then (peers.filter (s.connOf · = some d)).map fun _ => c.encode else [] :=
    foldl_handed (fun s p => controlTo_same s p c)
      (fun s p hs => ⟨writeReliable_wired hs .., writeReliable_handed hs p controlChannel c.encode⟩) h peers d
      controlChannel
  rw [htell, h.filter_connOf hn hp]
  by_cases hm : p ∈ peers <;> simp [hm]

/-- A connection of nobody told gets nothing. -/
theorem tell_handed_other {s : State} (h : Wired s) {peers : List Int32} {d : Connection}
    (hd : ∀ p ∈ peers, s.connOf p ≠ some d) (c : Control) (ch : Int32) :
    (s.tell peers c).handed d ch = s.handed d ch := by
  obtain ⟨new, he, hn⟩ := (tell_sends h peers c).2.handed d ch
  cases new with
  | nil => simpa using he
  | cons f fs =>
    obtain ⟨-, -, p, hp, hc⟩ := hn f (by simp)
    exact absurd hc (hd p hp)

/-- The state `welcome` is in before it tells the others. -/
def greet (s : State) (existing : List Int32) (peer : Int32) (c : Connection) : State :=
  (s.addLink peer c).controlTo peer (.welcome peer existing)

theorem welcome_eq (s : State) (existing : List Int32) (peer : Int32) (c : Connection) :
    s.welcome existing peer c = ((s.greet existing peer c).tell existing (.peerJoined peer)).announce peer := rfl

section Welcome
variable {s : State} (h : Wired s) {c : Connection} (hc : Unused s c) (existing : List Int32) (peer : Int32)

theorem greet_same : SameMembers (s.addLink peer c) (s.greet existing peer c) := controlTo_same ..

theorem welcome_connOf (p : Int32) :
    (s.welcome existing peer c).connOf p = if p = peer then some c else s.connOf p := by
  rw [welcome_eq, (announce_wire _ _).connOf, (tell_same ..).connOf, (greet_same ..).connOf, addLink_connOf]

theorem welcome_mem_links {p : Int32} : p ∈ (s.welcome existing peer c).links ↔ p = peer ∨ p ∈ s.links := by
  rw [mem_links_iff, mem_links_iff, welcome_connOf]
  split
  · next hp => simp [hp]
  · next hp => simp [hp]

theorem welcome_announced : (s.welcome existing peer c).announced = insert peer s.announced := by
  rw [welcome_eq, announce_announced, (tell_same ..).announced, (greet_same ..).announced]
  rfl

theorem welcome_readers : (s.welcome existing peer c).readers = s.readers ++ [(c, peer)] := by
  rw [welcome_eq, (announce_wire _ _).readers, (tell_same ..).readers, (greet_same ..).readers]
  rfl

theorem welcome_isHost : (s.welcome existing peer c).isHost = s.isHost := by
  rw [welcome_eq, (announce_wire _ _).isHost, (tell_same ..).isHost, (greet_same ..).isHost]
  rfl

theorem welcome_datagrams : (s.welcome existing peer c).datagrams = s.datagrams := by
  rw [welcome_eq, (announce_wire _ _).datagrams, tell_datagrams]
  exact writeReliable_datagrams ..

theorem welcome_adds : Adds (· = .peerConnected peer) s (s.welcome existing peer c) := by
  rw [welcome_eq]
  refine Adds.trans (.of_eq ?_) (announce_adds ..)
  rw [tell_events]
  exact writeReliable_events ..

theorem welcome_told (ht : Told s.events s.announced) :
    Told (s.welcome existing peer c).events (s.welcome existing peer c).announced := by
  rw [welcome_eq]
  refine announce_told ?_ peer
  rw [tell_events, (tell_same ..).announced, (greet_same ..).announced]
  rw [show (s.greet existing peer c).events = s.events from writeReliable_events ..]
  exact ht

include h hc

theorem greet_wired : Wired (s.greet existing peer c) := writeReliable_wired (addLink_wired h hc peer) ..

theorem welcome_wired : Wired (s.welcome existing peer c) :=
  ((tell_sends (greet_wired h hc existing peer) existing _).1).of_wire (announce_wire _ _)

theorem greet_handed (d : Connection) (ch : Int32) : (s.greet existing peer c).handed d ch =
    s.handed d ch ++ if c = d ∧ ch = controlChannel then [(Control.welcome peer existing).encode] else [] := by
  rw [greet, controlTo, writeReliable_handed (addLink_wired h hc peer), addLink_handed, addLink_connOf]
  simp

/-- What a welcome hands over on the new peer's connection. -/
theorem welcome_handed_new (hpeer : peer ∉ existing) :
    (s.welcome existing peer c).handed c controlChannel =
      s.handed c controlChannel ++ [(Control.welcome peer existing).encode] := by
  have hother : ∀ p ∈ existing, (s.greet existing peer c).connOf p ≠ some c := by
    intro p hp
    have hne : p ≠ peer := fun he => hpeer (he ▸ hp)
    rw [(greet_same ..).connOf, addLink_connOf, if_neg hne]
    exact hc.link p
  rw [welcome_eq, (announce_wire _ _).handed, tell_handed_other (greet_wired h hc existing peer) hother,
    greet_handed h hc]
  simp

/-- What a welcome hands over on an older peer's connection. -/
theorem welcome_handed_old (hn : existing.Nodup) {p : Int32} {d : Connection} (hp : s.connOf p = some d)
    (hm : p ∈ existing) (hpeer : peer ∉ existing) : (s.welcome existing peer c).handed d controlChannel =
      s.handed d controlChannel ++ [(Control.peerJoined peer).encode] := by
  have hne : p ≠ peer := fun he => hpeer (he ▸ hm)
  have hcd : c ≠ d := fun he => hc.link p (he ▸ hp)
  have hconn : (s.greet existing peer c).connOf p = some d := by
    rw [(greet_same ..).connOf, addLink_connOf, if_neg hne]
    exact hp
  rw [welcome_eq, (announce_wire _ _).handed, tell_handed (greet_wired h hc existing peer) hn hconn,
    greet_handed h hc]
  simp [hcd, hm]

/-- Off the control channel a welcome hands over nothing. -/
theorem welcome_handed_ne (d : Connection) {ch : Int32} (hch : ch ≠ controlChannel) :
    (s.welcome existing peer c).handed d ch = s.handed d ch := by
  obtain ⟨new, he, hn⟩ := (tell_sends (greet_wired h hc existing peer) existing (.peerJoined peer)).2.handed d ch
  rw [welcome_eq, (announce_wire _ _).handed, he, greet_handed h hc]
  cases new with
  | nil => simp [hch]
  | cons f fs => exact absurd (hn f (by simp)).2.1 hch

theorem welcome_handed_grows (d : Connection) (ch : Int32) :
    s.handed d ch <+: (s.welcome existing peer c).handed d ch := by
  obtain ⟨new, he, -⟩ := (tell_sends (greet_wired h hc existing peer) existing (.peerJoined peer)).2.handed d ch
  rw [welcome_eq, (announce_wire _ _).handed, he, greet_handed h hc, List.append_assoc]
  exact List.prefix_append ..

omit h hc in
theorem welcome_writers_grows : s.writers <+: (s.welcome existing peer c).writers := by
  rw [welcome_eq, (announce_wire _ _).writers]
  exact (writeReliable_writers_grows (s.addLink peer c) ..).trans (foldl_controlTo_writers_grows ..)

theorem welcome_writers {w : Connection × Int32} (hw : w ∈ (s.welcome existing peer c).writers) :
    w ∈ s.writers ∨ w.1 = c ∨ ∃ p, s.connOf p = some w.1 := by
  rw [welcome_eq, (announce_wire _ _).writers] at hw
  have hconn : ∀ p, (s.addLink peer c).connOf p = some w.1 → w.1 = c ∨ ∃ p, s.connOf p = some w.1 := by
    intro p hp
    rw [addLink_connOf] at hp
    split at hp
    · exact .inl (Option.some.inj hp).symm
    · exact .inr ⟨p, hp⟩
  rcases (tell_sends (greet_wired h hc existing peer) existing _).2.writers w hw with hw | ⟨⟨p, -, hp⟩, -⟩
  · rcases (writeReliable_sends (addLink_wired h hc peer) peer _ _).writers w hw with hw | ⟨hp, -⟩
    · exact .inl hw
    · exact .inr (hconn peer hp)
  · rw [(greet_same ..).connOf] at hp
    exact .inr (hconn p hp)

end Welcome

/-! ## Departures -/

section Lost
variable {s : State} (others : List Int32) (peer : Int32)

theorem unlink_handed : (s.unlink peer).handed = s.handed := rfl

/-- Once the peer is unlinked and forgotten, nothing `lost` still does
touches the members or the datagrams. -/
theorem lost_same (hm : peer ∈ s.links) : SameMembers ((s.unlink peer).forget peer) (s.lost others peer) ∧
    (s.lost others peer).datagrams = s.datagrams := by
  have hdata : ((s.unlink peer).forget peer).datagrams = s.datagrams := (forget_wire _ _).datagrams
  rw [lost_eq hm]
  split
  · exact ⟨tell_same _ others _, (tell_datagrams _ others _).trans hdata⟩
  split
  · exact ⟨⟨rfl, rfl, rfl, rfl⟩, hdata⟩
  · exact ⟨.refl _, hdata⟩

theorem lost_connOf (p : Int32) : (s.lost others peer).connOf p = if p = peer then none else s.connOf p := by
  by_cases hm : peer ∈ s.links
  · rw [(lost_same others peer hm).1.connOf, (forget_wire _ _).connOf, unlink_connOf]
  · rw [lost_of_not_mem hm]
    split
    · next hp =>
      subst hp
      by_contra hne
      exact hm (mem_links_iff.2 (Option.ne_none_iff_exists'.1 hne))
    · rfl

theorem lost_mem_links {p : Int32} : p ∈ (s.lost others peer).links ↔ p ≠ peer ∧ p ∈ s.links := by
  rw [mem_links_iff, mem_links_iff, lost_connOf]
  split
  · next hp => simp [hp]
  · next hp => simp [hp]

theorem lost_announced (hm : peer ∈ s.links) : (s.lost others peer).announced = s.announced.erase peer := by
  rw [(lost_same others peer hm).1.announced, forget_announced]
  rfl

theorem lost_readers : (s.lost others peer).readers = s.readers := by
  by_cases hm : peer ∈ s.links
  · rw [(lost_same others peer hm).1.readers, (forget_wire _ _).readers]
    rfl
  · rw [lost_of_not_mem hm]

theorem lost_isHost : (s.lost others peer).isHost = s.isHost := by
  by_cases hm : peer ∈ s.links
  · rw [(lost_same others peer hm).1.isHost, (forget_wire _ _).isHost]
    rfl
  · rw [lost_of_not_mem hm]

theorem lost_datagrams : (s.lost others peer).datagrams = s.datagrams := by
  by_cases hm : peer ∈ s.links
  · exact (lost_same others peer hm).2
  · rw [lost_of_not_mem hm]

/-- A client has nobody to tell of a loss. -/
theorem lost_client_writers (hrole : s.isHost = false) : (s.lost others peer).writers = s.writers := by
  have hbase : ((s.unlink peer).forget peer).writers = s.writers := (forget_wire _ _).writers
  by_cases hm : peer ∈ s.links
  · rw [lost_eq hm, hrole]
    split
    · simp at *
    split
    · exact hbase
    · exact hbase
  · rw [lost_of_not_mem hm]

theorem lost_writers_grows : s.writers <+: (s.lost others peer).writers := by
  by_cases hm : peer ∈ s.links
  · have hbase : ((s.unlink peer).forget peer).writers = s.writers := (forget_wire _ _).writers
    rw [lost_eq hm, ← hbase]
    split
    · exact foldl_controlTo_writers_grows ..
    split
    · exact List.prefix_refl _
    · exact List.prefix_refl _
  · rw [lost_of_not_mem hm]

theorem lost_adds : Adds (fun e => e = .peerDisconnected peer ∨ ∃ reason, e = .closed reason) s
    (s.lost others peer) := by
  by_cases hm : peer ∈ s.links
  · have hbase : Adds (fun e => e = .peerDisconnected peer ∨ ∃ reason, e = .closed reason) s
        ((s.unlink peer).forget peer) := (forget_adds (s.unlink peer) peer).mono fun _ => .inl
    rw [lost_eq hm]
    split
    · exact hbase.trans (.of_eq (foldl_controlTo_events ..))
    split
    · exact hbase.trans (.emit _ (.inr ⟨_, rfl⟩))
    · exact hbase
  · rw [lost_of_not_mem hm]
    exact .of_eq rfl

theorem lost_told (ht : Told s.events s.announced) :
    Told (s.lost others peer).events (s.lost others peer).announced := by
  by_cases hm : peer ∈ s.links
  · have hbase : Told ((s.unlink peer).forget peer).events ((s.unlink peer).forget peer).announced :=
      forget_told (s := s.unlink peer) ht peer
    rw [lost_eq hm]
    split
    · have ha := (tell_same ((s.unlink peer).forget peer) others (.peerLeft peer)).announced
      rw [tell] at ha
      rw [foldl_controlTo_events, ha]
      exact hbase
    split
    · exact hbase.silent (show ∀ e ∈ [Event.closed _], e.Silent by simp [Event.Silent, Event.heard])
    · exact hbase
  · rw [lost_of_not_mem hm]
    exact ht

variable (h : Wired s)
include h

theorem lost_sends : Wired (s.lost others peer) ∧
    Sends s (s.lost others peer) (fun d => ∃ p, s.connOf p = some d) controlChannel
      (Control.peerLeft peer).encode := by
  by_cases hm : peer ∈ s.links
  · have hbase : Wired ((s.unlink peer).forget peer) := (unlink_wired h peer).of_wire (forget_wire _ _)
    have hkeep : ∀ t, SameWire (s.unlink peer) t → Sends s t (fun d => ∃ p, s.connOf p = some d)
        controlChannel (Control.peerLeft peer).encode := fun t ht =>
      ⟨fun c ch => ⟨[], by rw [ht.handed, unlink_handed, List.append_nil], by simp⟩,
        ⟨[], by rw [ht.datagrams, List.append_nil]; rfl, by simp⟩, fun w hw => .inl (ht.writers ▸ hw)⟩
    rw [lost_eq hm]
    split
    · obtain ⟨hw, hs⟩ := tell_sends hbase others (.peerLeft peer)
      refine ⟨hw, (hkeep _ (forget_wire _ _)).trans (hs.mono ?_)⟩
      rintro d ⟨p, -, hp⟩
      rw [(forget_wire _ _).connOf, unlink_connOf] at hp
      split at hp
      · simp at hp
      · exact ⟨p, hp⟩
    split
    · exact ⟨hbase.of_wire (emit_wire _ _), hkeep _ ((forget_wire _ _).trans (emit_wire _ _))⟩
    · exact ⟨hbase, hkeep _ (forget_wire _ _)⟩
  · rw [lost_of_not_mem hm]
    exact ⟨h, .refl s⟩

/-- What a departure hands over on a remaining peer's connection, on the
host. -/
theorem lost_handed (hhost : s.isHost = true) (hn : others.Nodup) (hm : peer ∈ s.links) {p : Int32}
    {d : Connection} (hp : s.connOf p = some d) (hpm : p ∈ others) (hne : p ≠ peer) :
    (s.lost others peer).handed d controlChannel =
      s.handed d controlChannel ++ [(Control.peerLeft peer).encode] := by
  have hbase : Wired ((s.unlink peer).forget peer) := (unlink_wired h peer).of_wire (forget_wire _ _)
  have hconn : ((s.unlink peer).forget peer).connOf p = some d := by
    rw [(forget_wire _ _).connOf, unlink_connOf, if_neg hne]
    exact hp
  rw [lost_eq hm, if_pos hhost]
  refine (tell_handed hbase hn hconn (.peerLeft peer)).trans ?_
  rw [(forget_wire _ _).handed, unlink_handed, if_pos hpm]

end Lost

end State
end Gdiroh.Session
