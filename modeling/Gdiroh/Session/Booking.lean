/-
The map of connections that the session task shares with the main thread
(`connections` in `session.rs`), beside the links that only the task has.
Each operation of a handler does to the one what it does to the other, but for
the end of `run`, which drains the links and leaves the map.

Most is said of the state that the handler under way leads to (`settled`): no
reader or watcher changes that, and the start of a handler changes it as the
method of `State` does.
-/
import Gdiroh.Session.Finality
import Gdiroh.Session.Ids

namespace Gdiroh.Session

theorem mem_of_lookup {l : List (Connection × Int32)} {c : Connection} {peer : Int32} (h : l.lookup c = some peer) :
    (c, peer) ∈ l := by
  obtain ⟨xs, ys, rfl, -⟩ := List.lookup_eq_some_iff.1 h
  simp

theorem isSome_lookup {l : List (Connection × Int32)} {c : Connection} {peer : Int32} (h : (c, peer) ∈ l) :
    (l.lookup c).isSome := by
  by_contra hno
  rw [Option.not_isSome_iff_eq_none, List.lookup_eq_none_iff] at hno
  simpa using hno _ h

namespace State

/-- The map script reads is that of the links. -/
def Shared (s : State) : Prop := ∀ p, s.connections.lookup p = s.connOf p

/-- Every connection in it was registered under that id. -/
def Registered (s : State) : Prop := ∀ p c, s.connections.lookup p = some c → (c, p) ∈ s.readers

/-- The same peers on the same connections, in the same map. -/
structure SameBook (s t : State) : Prop where
  members : SameMembers s t
  connections : t.connections = s.connections

theorem SameBook.refl (s : State) : SameBook s s := ⟨.refl s, rfl⟩

theorem SameBook.symm {s t : State} (h : SameBook s t) : SameBook t s :=
  ⟨⟨h.members.isHost.symm, h.members.announced.symm, h.members.connOf.symm, h.members.readers.symm⟩,
    h.connections.symm⟩

theorem SameBook.trans {s t u : State} (h₁ : SameBook s t) (h₂ : SameBook t u) : SameBook s u :=
  ⟨h₁.members.trans h₂.members, h₂.connections.trans h₁.connections⟩

theorem Shared.of_eq {s t : State} (h : s.Shared) (hmap : t.connections = s.connections) (hconn : t.connOf = s.connOf) :
    t.Shared := by
  intro p
  rw [hmap, hconn]
  exact h p

theorem lookup_insert_connection {m : AList fun _ : Int32 => Connection} {peer p : Int32} {c : Connection} :
    (m.insert peer c).lookup p = if p = peer then some c else m.lookup p := by
  by_cases h : p = peer
  · rw [if_pos h, h, AList.lookup_insert]
  · rw [if_neg h, AList.lookup_insert_ne h]

theorem lookup_erase_connection {m : AList fun _ : Int32 => Connection} {peer p : Int32} :
    (m.erase peer).lookup p = if p = peer then none else m.lookup p := by
  by_cases h : p = peer
  · rw [if_pos h, h, AList.lookup_erase]
  · rw [if_neg h, AList.lookup_erase_ne h]

/-! ## What each operation does to the map -/

theorem writeReliable_connections (s : State) (peer channel : Int32) (data : Bytes) :
    (s.writeReliable peer channel data).connections = s.connections := by
  unfold writeReliable
  split
  · rfl
  · split <;> rfl

theorem warnOversize_connections (s : State) (peer channel : Int32) (data : Bytes) (limit : Nat) (link : Link) :
    (s.warnOversize peer channel data limit link).connections = s.connections := by
  unfold warnOversize
  split <;> rfl

theorem writeDatagram_connections (s : State) (limits : Limits) (peer channel : Int32) (mode : Mode) (data : Bytes) :
    (s.writeDatagram limits peer channel mode data).connections = s.connections := by
  unfold writeDatagram
  split
  · rfl
  · dsimp only
    split
    · rw [writeReliable_connections, warnOversize_connections]
    · rfl

theorem sendOne_connections (s : State) (limits : Limits) (peer channel : Int32) (mode : Mode) (data : Bytes) :
    (s.sendOne limits peer channel mode data).connections = s.connections := by
  cases mode with
  | reliable => exact writeReliable_connections ..
  | unreliable | unreliableOrdered => exact writeDatagram_connections ..

theorem dropLink_connections (s : State) (peer : Int32) : (s.dropLink peer).connections = s.connections := by
  unfold dropLink
  split <;> rfl

theorem announce_connections (s : State) (peer : Int32) : (s.announce peer).connections = s.connections := by
  unfold announce
  split <;> rfl

theorem forget_connections (s : State) (peer : Int32) : (s.forget peer).connections = s.connections := by
  unfold forget
  split <;> rfl

end State

namespace Op

/-- It is the end of `run`. -/
def Finishes : Op → Prop
  | .finish _ => True
  | _ => False

/-- An operation does the same to what is the same. -/
theorem exec_book {s t : State} (h : s.SameBook t) (op : Op) : (op.exec s).SameBook (op.exec t) := by
  -- Where it leaves the map and its peers alone.
  have hold : (∀ u : State, u.SameBook (op.exec u)) → (op.exec s).SameBook (op.exec t) :=
    fun hu => ((hu s).symm.trans h).trans (hu t)
  obtain ⟨⟨hrole, hannounced, hconn, hreaders⟩, hmap⟩ := h
  cases op with
  | addLink peer c =>
    refine ⟨⟨hrole, hannounced, funext fun p => ?_, ?_⟩, ?_⟩
    · rw [exec, exec, State.addLink_connOf, State.addLink_connOf, hconn]
    · exact congrArg (· ++ [(c, peer)]) hreaders
    · exact congrArg (·.insert peer c) hmap
  | announce peer =>
    have hs := State.announce_wire s peer
    have ht := State.announce_wire t peer
    refine ⟨⟨ht.isHost.trans (hrole.trans hs.isHost.symm), ?_, ht.connOf.trans (hconn.trans hs.connOf.symm),
      ht.readers.trans (hreaders.trans hs.readers.symm)⟩, ?_⟩
    · rw [exec, exec, State.announce_announced, State.announce_announced, hannounced]
    · rw [exec, exec, State.announce_connections, State.announce_connections, hmap]
  | forget peer =>
    have hs := State.forget_wire s peer
    have ht := State.forget_wire t peer
    refine ⟨⟨ht.isHost.trans (hrole.trans hs.isHost.symm), ?_, ht.connOf.trans (hconn.trans hs.connOf.symm),
      ht.readers.trans (hreaders.trans hs.readers.symm)⟩, ?_⟩
    · rw [exec, exec, State.forget_announced, State.forget_announced, hannounced]
    · rw [exec, exec, State.forget_connections, State.forget_connections, hmap]
  | unlink peer =>
    refine ⟨⟨hrole, hannounced, funext fun p => ?_, hreaders⟩, congrArg (·.erase peer) hmap⟩
    change (t.unlink peer).connOf p = (s.unlink peer).connOf p
    rw [State.unlink_connOf, State.unlink_connOf, hconn]
  | ready id => exact hold fun u => ⟨⟨rfl, rfl, rfl, rfl⟩, rfl⟩
  | closed reason => exact hold fun u => ⟨⟨rfl, rfl, rfl, rfl⟩, rfl⟩
  | controlTo peer control => exact hold fun u => ⟨State.controlTo_same .., State.writeReliable_connections ..⟩
  | sendOne limits peer channel mode data =>
    exact hold fun u => ⟨State.sendOne_same .., State.sendOne_connections ..⟩
  | dropLink peer => exact hold fun u => ⟨State.dropLink_same .., State.dropLink_connections ..⟩
  | finish drained => exact ⟨⟨hrole, hannounced, rfl, hreaders⟩, hmap⟩

/-- The map follows the links until the end of `run`, which leaves it as it
is. -/
theorem exec_shared {s : State} (h : s.Shared) {op : Op} (hop : ¬ op.Finishes) : (op.exec s).Shared := by
  cases op with
  | addLink peer c =>
    intro p
    rw [exec, State.addLink_connOf, ← h p]
    exact State.lookup_insert_connection
  | unlink peer =>
    intro p
    change (s.connections.erase peer).lookup p = (s.unlink peer).connOf p
    rw [State.unlink_connOf, ← h p]
    exact State.lookup_erase_connection
  | announce peer => exact h.of_eq (State.announce_connections ..) (State.announce_wire ..).connOf
  | forget peer => exact h.of_eq (State.forget_connections ..) (State.forget_wire ..).connOf
  | ready id => exact h
  | closed reason => exact h
  | controlTo peer control => exact h.of_eq (State.writeReliable_connections ..) (State.controlTo_same ..).connOf
  | sendOne limits peer channel mode data =>
    exact h.of_eq (State.sendOne_connections ..) (State.sendOne_same ..).connOf
  | dropLink peer => exact h.of_eq (State.dropLink_connections ..) (State.dropLink_same ..).connOf
  | finish drained => exact absurd trivial hop

theorem exec_registered {s : State} (h : s.Registered) (op : Op) : (op.exec s).Registered := by
  have hold : (op.exec s).connections = s.connections → (op.exec s).readers = s.readers →
      (op.exec s).Registered := by
    intro hmap hreaders p c hp
    rw [hmap] at hp
    exact hreaders ▸ h p c hp
  cases op with
  | addLink peer c =>
    intro p d hp
    have hp : (s.connections.insert peer c).lookup p = some d := hp
    rw [State.lookup_insert_connection] at hp
    split at hp
    · next he =>
      obtain rfl := Option.some.inj hp
      exact List.mem_append_right _ (by simp [he])
    · exact List.mem_append_left _ (h p d hp)
  | unlink peer =>
    intro p d hp
    have hp : (s.connections.erase peer).lookup p = some d := hp
    rw [State.lookup_erase_connection] at hp
    split at hp
    · simp at hp
    · exact h p d hp
  | announce peer => exact hold (State.announce_connections ..) (State.announce_wire ..).readers
  | forget peer => exact hold (State.forget_connections ..) (State.forget_wire ..).readers
  | ready id => exact h
  | closed reason => exact h
  | controlTo peer control => exact hold (State.writeReliable_connections ..) (State.controlTo_same ..).readers
  | sendOne limits peer channel mode data =>
    exact hold (State.sendOne_connections ..) (State.sendOne_same ..).readers
  | dropLink peer => exact hold (State.dropLink_connections ..) (State.dropLink_same ..).readers
  | finish drained => exact h

/-- Readers that run go on running. -/
theorem exec_readers_grow (s : State) (op : Op) : s.readers <+: (op.exec s).readers := by
  by_cases hadd : ∃ peer c, op = .addLink peer c
  · obtain ⟨peer, c, rfl⟩ := hadd
    exact List.prefix_append ..
  · rw [(op.exec_readers s fun peer c he => hadd ⟨peer, c, he⟩).1]

theorem foldl_book {ops : List Op} {s t : State} (h : s.SameBook t) :
    (ops.foldl exec s).SameBook (ops.foldl exec t) := by
  induction ops generalizing s t with
  | nil => exact h
  | cons op ops ih => exact ih (op.exec_book h)

theorem foldl_shared {ops : List Op} {s : State} (h : s.Shared) (hops : ∀ op ∈ ops, ¬ op.Finishes) :
    (ops.foldl exec s).Shared := by
  induction ops generalizing s with
  | nil => exact h
  | cons op ops ih =>
    exact ih (exec_shared h (hops op List.mem_cons_self)) fun o ho => hops o (List.mem_cons_of_mem op ho)

theorem foldl_told {ops : List Op} {s : State} (h : Told s.events s.announced) :
    Told (ops.foldl exec s).events (ops.foldl exec s).announced := by
  induction ops generalizing s with
  | nil => exact h
  | cons op ops ih => exact ih (exec_told h op)

theorem foldl_readers_grow (ops : List Op) (s : State) : s.readers <+: (ops.foldl exec s).readers := by
  induction ops generalizing s with
  | nil => exact List.prefix_refl _
  | cons op ops ih => exact (exec_readers_grow s op).trans (ih (op.exec s))

end Op

namespace Tasks

/-! ## The state a handler leads to -/

/-- The state once the handler under way is done. -/
def settled (t : Tasks) : State := t.todo.foldl Op.exec t.state

/-- What an arm of the `select` makes of the state. -/
def handled (t : Tasks) : Turn → State
  | .accept c existing => t.state.welcome existing t.nextId c
  | .send limits keys target channel mode data => t.state.send limits keys target channel mode data
  | .disconnect peer => t.state.dropLink peer
  | .close drained => t.state.finish drained
  | .internal others =>
    match t.internal with
    | [] => t.state
    | .control c :: _ => t.state.apply c
    | .lost peer :: _ => t.state.lost others peer

theorem handled_control {t : Tasks} {others : List Int32} {c : Control} {rest : List Internal}
    (h : t.internal = .control c :: rest) : t.handled (.internal others) = t.state.apply c := by
  rw [handled, h]

theorem handled_lost {t : Tasks} {others : List Int32} {peer : Int32} {rest : List Internal}
    (h : t.internal = .lost peer :: rest) : t.handled (.internal others) = t.state.lost others peer := by
  rw [handled, h]

theorem start_settled {t t' : Tasks} {turn : Turn} (h : t.start turn = some t') : t'.settled = t.handled turn := by
  cases turn with
  | accept c existing =>
    simp only [start] at h
    split at h
    · rw [← Option.some.inj h]
      exact exec_welcomeOps ..
    · simp at h
  | send limits keys target channel mode data =>
    simp only [start] at h
    split at h
    · rw [← Option.some.inj h]
      exact exec_sendOps ..
    · simp at h
  | disconnect peer => rw [← Option.some.inj h]; rfl
  | close drained => rw [← Option.some.inj h]; rfl
  | internal others =>
    simp only [start] at h
    split at h
    · simp at h
    · next c rest hint =>
      rw [← Option.some.inj h, handled_control hint]
      exact exec_applyOps ..
    · next peer rest hint =>
      split at h
      · rw [← Option.some.inj h, handled_lost hint]
        exact exec_lostOps ..
      · simp at h

/-- Only an accept starts readers, under the next id. -/
theorem start_readers {t t' : Tasks} {turn : Turn} (h : t.start turn = some t') :
    (∃ c, t.state.isHost = true ∧ t'.settled.readers = t.state.readers ++ [(c, t.nextId)] ∧
      t'.nextId = followingId t.nextId) ∨ t'.settled.readers = t.state.readers ∧ t'.nextId = t.nextId := by
  rw [start_settled h]
  cases turn with
  | accept c existing =>
    simp only [start] at h
    split at h
    · next hg =>
      rw [← Option.some.inj h]
      exact .inl ⟨c, hg.1, State.welcome_readers .., rfl⟩
    · simp at h
  | send limits keys target channel mode data =>
    simp only [start] at h
    split at h
    · rw [← Option.some.inj h]
      exact .inr ⟨(State.send_same ..).readers, rfl⟩
    · simp at h
  | disconnect peer =>
    rw [← Option.some.inj h]
    exact .inr ⟨(State.dropLink_same ..).readers, rfl⟩
  | close drained => rw [← Option.some.inj h]; exact .inr ⟨rfl, rfl⟩
  | internal others =>
    simp only [start] at h
    split at h
    · simp at h
    · next c rest hint =>
      rw [← Option.some.inj h, handled_control hint]
      exact .inr ⟨(State.apply_wire ..).readers, rfl⟩
    · next peer rest hint =>
      split at h
      · rw [← Option.some.inj h, handled_lost hint]
        exact .inr ⟨State.lost_readers .., rfl⟩
      · simp at h

/-- Nothing but the start of a handler changes where its end will be. -/
theorem other_settled {t t' : Tasks} {a : Action} (ha : ∀ turn, a ≠ .turn turn) (h : step t a = some t') :
    t.settled.SameBook t'.settled ∧ t'.nextId = t.nextId ∧ t'.ended = t.ended := by
  cases a with
  | turn turn => exact absurd rfl (ha turn)
  | tick =>
    simp only [step] at h
    split at h
    · simp at h
    next op rest htodo =>
      rw [← Option.some.inj h, settled, settled, htodo]
      exact ⟨.refl _, rfl, rfl⟩
  | watch c =>
    simp only [step] at h
    split at h
    · simp at h
    · split at h
      · simp at h
      · rw [← Option.some.inj h]
        exact ⟨.refl _, rfl, rfl⟩
  | arrive a =>
    simp only [step, Option.map_eq_some_iff, Prod.exists] at h
    obtain ⟨arrivals, rep, -, rfl⟩ := h
    cases rep with
    | none => exact ⟨.refl _, rfl, rfl⟩
    | some rep =>
      cases rep with
      | control c => exact ⟨.refl _, rfl, rfl⟩
      | packet p => exact ⟨Op.foldl_book ⟨⟨rfl, rfl, rfl, rfl⟩, rfl⟩, rfl, rfl⟩

/-! ## The ids that were given -/

/-- A host gives the ids in turn, a client has the one. -/
structure Numbered (t : Tasks) : Prop where
  host : t.state.isHost = true → (∀ j x, t.settled.readers[j]? = some x → IsId (j + 1) x.2) ∧
    IsId (t.settled.readers.length + 1) t.nextId
  client : t.state.isHost = false → t.settled.readers.length ≤ 1

/-- What a step may do to the state: nothing, one operation, or a packet. -/
theorem step_state {t t' : Tasks} {a : Action} (h : step t a = some t') :
    t'.state = t.state ∨ (∃ op : Op, t'.state = op.exec t.state) ∨ ∃ p, t'.state = t.state.emit (.packet p) := by
  cases a with
  | turn turn =>
    simp only [step] at h
    split at h
    · exact .inl (start_state h).1
    · simp at h
  | tick =>
    simp only [step] at h
    split at h
    · simp at h
    next op rest _ => exact .inr (.inl ⟨op, by rw [← Option.some.inj h]⟩)
  | watch c =>
    simp only [step] at h
    split at h
    · simp at h
    · split at h
      · simp at h
      · exact .inl (by rw [← Option.some.inj h])
  | arrive a =>
    simp only [step, Option.map_eq_some_iff, Prod.exists] at h
    obtain ⟨arrivals, rep, -, rfl⟩ := h
    cases rep with
    | none => exact .inl rfl
    | some rep =>
      cases rep with
      | control c => exact .inl rfl
      | packet p => exact .inr (.inr ⟨p, rfl⟩)

theorem step_isHost {t t' : Tasks} {a : Action} (h : step t a = some t') : t'.state.isHost = t.state.isHost := by
  rcases step_state h with he | ⟨op, he⟩ | ⟨p, he⟩
  · rw [he]
  · rw [he, Op.exec_isHost]
  · rw [he]
    rfl

theorem step_readers_grow {t t' : Tasks} {a : Action} (h : step t a = some t') :
    t.state.readers <+: t'.state.readers := by
  rcases step_state h with he | ⟨op, he⟩ | ⟨p, he⟩
  · rw [he]
  · rw [he]
    exact Op.exec_readers_grow ..
  · rw [he]
    exact List.prefix_refl _

theorem numbered_step {t t' : Tasks} {a : Action} (h : Numbered t) (hs : step t a = some t') : Numbered t' := by
  have hrole := step_isHost hs
  -- Where the readers stay.
  have hold : t'.settled.readers = t.settled.readers → t'.nextId = t.nextId → Numbered t' := by
    intro hreaders hnext
    constructor
    · rw [hrole, hreaders, hnext]
      exact h.host
    · rw [hrole, hreaders]
      exact h.client
  by_cases ha : ∃ turn, a = .turn turn
  · obtain ⟨turn, rfl⟩ := ha
    simp only [step] at hs
    split at hs
    next hg =>
      have hsettled : t.settled = t.state := by rw [settled, hg.1]; rfl
      rcases start_readers hs with ⟨c, hhost, hreaders, hnext⟩ | ⟨hreaders, hnext⟩
      · obtain ⟨hgiven, hid⟩ := h.host hhost
        rw [hsettled] at hgiven hid
        refine ⟨fun _ => ?_, fun hr => by rw [hrole, hhost] at hr; simp at hr⟩
        rw [hreaders, hnext]
        refine ⟨fun j x hj => ?_, by simpa using hid.following (Nat.succ_pos _)⟩
        rcases Logs.getElem?_concat.1 hj with hj | ⟨rfl, rfl⟩
        · exact hgiven j x hj
        · exact hid
      · exact hold (hreaders.trans (by rw [hsettled])) hnext
    · simp at hs
  · obtain ⟨hbook, hnext, -⟩ := other_settled (fun turn he => ha ⟨turn, he⟩) hs
    exact hold hbook.members.readers hnext

/-- Two connections under one id: as many accepts lie between them as there
are ids. -/
theorem Numbered.unique {t : Tasks} (h : Numbered t) {c d : Connection} {peer : Int32}
    (hc : (c, peer) ∈ t.state.readers) (hd : (d, peer) ∈ t.state.readers) : c = d ∨ ids < t.state.readers.length := by
  have hgrow : t.state.readers <+: t.settled.readers := Op.foldl_readers_grow ..
  obtain ⟨i, hci⟩ := List.mem_iff_getElem?.1 hc
  obtain ⟨j, hdj⟩ := List.mem_iff_getElem?.1 hd
  have hi := (List.getElem?_eq_some_iff.1 hci).1
  have hj := (List.getElem?_eq_some_iff.1 hdj).1
  have hsame : i = j → c = d := by
    rintro rfl
    exact congrArg Prod.fst (Option.some.inj (hci.symm.trans hdj))
  cases hrole : t.state.isHost with
  | false =>
    have hlen := hgrow.length_le.trans (h.client hrole)
    exact .inl (hsame (by omega))
  | true =>
    obtain ⟨hgiven, -⟩ := h.host hrole
    have hplace : Rounds.place ids (i + 1) = Rounds.place ids (j + 1) := by
      have hi : peer.toInt = _ := hgiven i _ (Logs.getElem?_grown hgrow hci)
      have hj : peer.toInt = _ := hgiven j _ (Logs.getElem?_grown hgrow hdj)
      omega
    rcases Nat.lt_or_ge ids t.state.readers.length with hmany | hfew
    · exact .inr hmany
    · refine .inl (hsame ?_)
      rcases Nat.le_total i j with hij | hij
      · have := Rounds.eq_of_place_eq (Nat.succ_pos i) (by omega) (by omega) hplace
        omega
      · have := Rounds.eq_of_place_eq (Nat.succ_pos j) (by omega) (by omega) hplace.symm
        omega

/-! ## The map beside the links -/

/-- What holds of the map throughout: until the task is about to end it is
that of the links. -/
structure Booked (t : Tasks) : Prop where
  told : Told t.state.events t.state.announced
  registered : t.state.Registered
  shared : t.ended = false → t.state.Shared
  todo : t.ended = false → ∀ op ∈ t.todo, ¬ op.Finishes

theorem start_todo {t t' : Tasks} {turn : Turn} (h : t.start turn = some t') (hended : t'.ended = false) :
    ∀ op ∈ t'.todo, ¬ op.Finishes := by
  cases turn with
  | accept c existing =>
    simp only [start] at h
    split at h
    · rw [← Option.some.inj h]
      intro op hop
      simp only [welcomeOps, List.mem_cons, List.mem_append, List.mem_map, List.not_mem_nil, or_false] at hop
      rcases hop with rfl | rfl | ⟨p, -, rfl⟩ | rfl <;> exact id
    · simp at h
  | send limits keys target channel mode data =>
    simp only [start] at h
    split at h
    · rw [← Option.some.inj h]
      intro op hop
      simp only [sendOps] at hop
      split at hop
      · obtain ⟨p, -, rfl⟩ := List.mem_map.1 hop
        exact id
      · obtain rfl := List.mem_singleton.1 hop
        exact id
    · simp at h
  | disconnect peer =>
    rw [← Option.some.inj h]
    intro op hop
    obtain rfl := List.mem_singleton.1 hop
    exact id
  | close drained =>
    rw [← Option.some.inj h] at hended
    simp at hended
  | internal others =>
    simp only [start] at h
    split at h
    · simp at h
    · next c rest hint =>
      rw [← Option.some.inj h]
      intro op hop
      cases c with
      | welcome yourId peers =>
        simp only [applyOps, List.mem_cons, List.mem_map] at hop
        rcases hop with rfl | rfl | ⟨p, -, rfl⟩ <;> exact id
      | peerJoined peer | peerLeft peer =>
        obtain rfl := List.mem_singleton.1 hop
        exact id
    · next peer rest hint =>
      split at h
      · rw [← Option.some.inj h]
        intro op hop
        simp only [lostOps] at hop
        split at hop
        · simp only [List.mem_cons] at hop
          rcases hop with rfl | rfl | hop
          · exact id
          · exact id
          split at hop
          · obtain ⟨p, -, rfl⟩ := List.mem_map.1 hop
            exact id
          split at hop
          · obtain rfl := List.mem_singleton.1 hop
            exact id
          · simp at hop
        · simp at hop
      · simp at h

theorem start_ended {t t' : Tasks} {turn : Turn} (h : t.start turn = some t') (hended : t'.ended = false) :
    t.ended = false := by
  cases turn with
  | accept | send =>
    simp only [start] at h
    split at h
    · rw [← Option.some.inj h] at hended; exact hended
    · simp at h
  | disconnect => rw [← Option.some.inj h] at hended; exact hended
  | close => rw [← Option.some.inj h] at hended; simp at hended
  | internal others =>
    simp only [start] at h
    split at h
    · simp at h
    · rw [← Option.some.inj h] at hended; exact hended
    · split at h
      · rw [← Option.some.inj h] at hended; exact hended
      · simp at h

theorem booked_step {t t' : Tasks} {a : Action} (h : Booked t) (hs : step t a = some t') : Booked t' := by
  cases a with
  | turn turn =>
    simp only [step] at hs
    split at hs
    · have hstate := (start_state hs).1
      exact ⟨hstate ▸ h.told, hstate ▸ h.registered, fun he => hstate ▸ h.shared (start_ended hs he), start_todo hs⟩
    · simp at hs
  | tick =>
    simp only [step] at hs
    split at hs
    · simp at hs
    next op rest htodo =>
      rw [← Option.some.inj hs]
      refine ⟨Op.exec_told h.told op, Op.exec_registered h.registered op, fun he => ?_, fun he o ho => ?_⟩
      · exact Op.exec_shared (h.shared he) (h.todo he op (by simp [htodo]))
      · exact h.todo he o (by rw [htodo]; exact List.mem_cons_of_mem op ho)
  | watch c =>
    simp only [step] at hs
    split at hs
    · simp at hs
    · split at hs
      · simp at hs
      · rw [← Option.some.inj hs]
        exact ⟨h.told, h.registered, h.shared, h.todo⟩
  | arrive a =>
    simp only [step, Option.map_eq_some_iff, Prod.exists] at hs
    obtain ⟨arrivals, rep, -, rfl⟩ := hs
    cases rep with
    | none => exact ⟨h.told, h.registered, h.shared, h.todo⟩
    | some rep =>
      cases rep with
      | control c => exact ⟨h.told, h.registered, h.shared, h.todo⟩
      | packet p =>
        refine ⟨?_, h.registered, h.shared, h.todo⟩
        exact h.told.silent (show ∀ e ∈ [Event.packet p], e.Silent by simp [Event.Silent, Event.heard])

end Tasks
end Gdiroh.Session
