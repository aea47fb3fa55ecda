/-
Whether the sessions of one `IrohPeer` stay apart. A session's events are
handled one by one after they were taken out, and a script that runs in a
signal handler between two of them can close the peer or start another
session: the rest of the batch is then handled all the same, and a packet in
it waits among those of the new session (`old_packet`). `incoming` also
outlives a session that ended by itself, and `join` leaves the id of a host
as it is.

`sessions_apart` says when nothing of a session shows in another: when no
session is started over waiting packets, no call in a signal handler comes
with packets or peers left in the batch, and nobody but a host is or is told
to be peer 1.

The sessions are numbered as they start. Whose events are handled and whose
packets wait is kept beside the peer.
-/
import Gdiroh.Peer.Calls

namespace Gdiroh
open Session

/-- Tells of a peer. -/
def Session.Event.isPeer : Event → Bool
  | .peerConnected _ | .peerDisconnected _ => true
  | _ => false

/-- Comes of a session to the script: as a signal or as a packet. -/
def Session.Event.shows (e : Event) : Bool := e.isPeer || e.packet?.isSome

/-- Emits a signal, whose handlers run inside `poll`. -/
def Session.Event.signals (e : Event) : Bool :=
  match e with
  | .peerConnected _ | .peerDisconnected _ | .warning _ => true
  | _ => false

/-- A call leaves a peer as it is, or with a new session that has brought no
packets. -/
def Front.Begins (p p' : Front) : Prop :=
  p' = p ∨ ∃ life : Life, p'.session = some { life := life } ∧ p'.incoming = p.incoming ∧ packets life.events = []

theorem Front.host_begins (p : Front) (bound registered running : Bool) :
    p.Begins (p.host bound registered running).1 := by
  unfold Front.host
  split
  · exact .inl rfl
  · exact .inr ⟨_, rfl, rfl, by cases registered <;> cases running <;> rfl⟩

theorem Front.join_begins (p : Front) (valid bound itself running : Bool) :
    p.Begins (p.join valid bound itself running).1 := by
  unfold Front.join Front.startJoin
  split
  · exact .inl rfl
  split
  · exact .inl rfl
  split
  · exact .inl rfl
  · exact .inr ⟨_, rfl, rfl, by cases running <;> rfl⟩

structure Play where
  front : Front := {}
  /-- Taken out by `poll` and not handled yet. -/
  batch : List Event := []
  /-- The session the batch is of. -/
  batchOf : Nat := 0
  /-- A signal was emitted last: its handlers may run. -/
  emitting : Bool := false
  /-- How many sessions were started. -/
  started : Nat := 0
  /-- The session started last, unless `close` was called since. -/
  current : Option Nat := none
  /-- The session started last was started by `host`. -/
  byHost : Bool := false
  /-- The sessions the packets of `incoming` are of. -/
  origins : List Nat := []

namespace Play

inductive Action where
  | host (bound registered running : Bool)
  | join (valid bound itself running : Bool)
  | joinTicket (valid bound itself running : Bool)
  | close
  | getPacket
  /-- `poll` takes the events out. -/
  | poll
  /-- `poll` handles the next one. -/
  | handle
  /-- The session moves on by itself. -/
  | session (a : Life.Act)

/-- Script runs: outside `poll`, or in a signal handler. -/
def Script (s : Play) : Prop := s.batch = [] ∨ s.emitting = true

instance (s : Play) : Decidable s.Script := inferInstanceAs (Decidable (_ ∨ _))

/-- A call that answers whether it started a session. -/
def starting (s : Play) (byHost : Bool) (answer : Front × Bool) : Play :=
  if answer.2 then
    { s with front := answer.1, started := s.started + 1, current := some (s.started + 1), byHost := byHost }
  else { s with front := answer.1 }

def step (s : Play) : Action → Option Play
  | .host bound registered running =>
    if s.Script then some (s.starting true (s.front.host bound registered running)) else none
  | .join valid bound itself running =>
    if s.Script then some (s.starting false (s.front.join valid bound itself running)) else none
  | .joinTicket valid bound itself running =>
    if s.Script then some (s.starting false (s.front.joinTicket valid bound itself running)) else none
  | .close => if s.Script then some { s with front := s.front.close, current := none, origins := [] } else none
  | .getPacket => if s.Script then some { s with front := s.front.popPacket.1, origins := s.origins.tail } else none
  | .poll =>
    if s.batch = [] then
      some { s with front := s.front.drain, batch := s.front.waiting, batchOf := s.started, emitting := false }
    else none
  | .handle =>
    match s.batch with
    | [] => none
    | e :: rest =>
      some { s with
        front := s.front.handle e
        batch := rest
        emitting := e.signals
        origins := if e.packet?.isSome then s.origins ++ [s.batchOf] else s.origins }
  | .session a =>
    s.front.session.bind fun h => (h.step a).map fun h => { s with front := { s.front with session := some h } }

/-- What the step shows is of the current session. -/
def Own (s : Play) : Action → Prop
  | .getPacket => ∀ p ∈ s.front.popPacket.2, ∃ n, s.origins.head? = some n ∧ s.current = some n
  | .handle => ∀ e ∈ s.batch.head?, e.isPeer = true → s.current = some s.batchOf
  | _ => True

/-- Only with a session of its own is the peer a server. -/
def Serves (s : Play) : Prop := s.front.isServer = true → s.front.session ≠ none ∧ s.byHost = true

/-- Nothing left in the batch shows. -/
def Spent (s : Play) : Prop := ∀ e ∈ s.batch, e.shows = false

instance (s : Play) : Decidable s.Spent := inferInstanceAs (Decidable (∀ e ∈ s.batch, _))

/-- A session is started over no waiting packets, a call in a handler comes
when nothing left in the batch shows, a peer that joins is not peer 1, and
only a host is told that it is. -/
def Clean (s : Play) : Action → Prop
  | .host bound _ _ => bound = true → s.front.incoming = [] ∧ s.Spent
  | .join valid bound itself _ | .joinTicket valid bound itself _ =>
    valid = true → bound = true → itself = false →
      s.front.incoming = [] ∧ s.Spent ∧ s.front.uniqueId ≠ hostId
  | .close => s.Spent
  | .handle => s.batch.head? = some (.ready hostId) → s.front.session.isSome = true ∧ s.byHost = true
  | _ => True

instance (s : Play) : ∀ a, Decidable (s.Clean a)
  | .host .. => inferInstanceAs (Decidable (_ → _))
  | .join .. | .joinTicket .. => inferInstanceAs (Decidable (_ → _))
  | .close => inferInstanceAs (Decidable s.Spent)
  | .handle => inferInstanceAs (Decidable (_ → _))
  | .getPacket | .poll | .session _ => isTrue trivial

/-- What the step shows, it shows while the peer holds a session. -/
def Held (s : Play) : Action → Prop
  | .getPacket => ∀ p ∈ s.front.popPacket.2, s.front.session ≠ none
  | .handle => ∀ e ∈ s.batch.head?, e.isPeer = true → s.front.session ≠ none
  | _ => True

/-- A session's end is handled when no packet waits and nothing after it in
the batch shows. -/
def Last (s : Play) : Action → Prop
  | .handle => (s.batch.head?.any Event.isClosed) = true → s.front.incoming = [] ∧ ∀ e ∈ s.batch.tail, e.shows = false
  | _ => True

instance (s : Play) : ∀ a, Decidable (s.Last a)
  | .handle => inferInstanceAs (Decidable (_ → _))
  | .host .. | .join .. | .joinTicket .. | .close | .getPacket | .poll | .session _ => isTrue trivial

/-! ## What a step does -/

@[simp] theorem starting_front (s : Play) (byHost : Bool) (answer : Front × Bool) :
    (s.starting byHost answer).front = answer.1 := by
  unfold starting
  split <;> rfl

@[simp] theorem starting_batch (s : Play) (byHost : Bool) (answer : Front × Bool) :
    (s.starting byHost answer).batch = s.batch := by
  unfold starting
  split <;> rfl

/-- Each action, when it can be taken and what it leaves. -/
inductive Stepped (s : Play) : Action → Play → Prop
  | host {bound registered running} :
    Stepped s (.host bound registered running) (s.starting true (s.front.host bound registered running))
  | join {valid bound itself running} :
    Stepped s (.join valid bound itself running) (s.starting false (s.front.join valid bound itself running))
  | joinTicket {valid bound itself running} :
    Stepped s (.joinTicket valid bound itself running) (s.starting false (s.front.join valid bound itself running))
  | close : Stepped s .close { s with front := s.front.close, current := none, origins := [] }
  | getPacket : Stepped s .getPacket { s with front := s.front.popPacket.1, origins := s.origins.tail }
  | poll : Stepped s .poll
      { s with front := s.front.drain, batch := s.front.waiting, batchOf := s.started, emitting := false }
  | handle {e rest} (hbatch : s.batch = e :: rest) : Stepped s .handle
      { s with
        front := s.front.handle e
        batch := rest
        emitting := e.signals
        origins := if e.packet?.isSome then s.origins ++ [s.batchOf] else s.origins }
  | session {a held held'} (hheld : s.front.session = some held) :
    Stepped s (.session a) { s with front := { s.front with session := some held' } }

theorem step_cases {s s' : Play} {a : Action} (h : step s a = some s') : Stepped s a s' := by
  cases a with
  | host bound registered running =>
    simp only [step, Option.ite_none_right_eq_some] at h
    exact Option.some.inj h.2 ▸ .host
  | join valid bound itself running =>
    simp only [step, Option.ite_none_right_eq_some] at h
    exact Option.some.inj h.2 ▸ .join
  | joinTicket valid bound itself running =>
    simp only [step, Option.ite_none_right_eq_some] at h
    exact Option.some.inj h.2 ▸ .joinTicket
  | close =>
    simp only [step, Option.ite_none_right_eq_some] at h
    exact Option.some.inj h.2 ▸ .close
  | getPacket =>
    simp only [step, Option.ite_none_right_eq_some] at h
    exact Option.some.inj h.2 ▸ .getPacket
  | poll =>
    simp only [step, Option.ite_none_right_eq_some] at h
    exact Option.some.inj h.2 ▸ .poll
  | handle =>
    simp only [step] at h
    split at h
    · simp at h
    · next hbatch => exact Option.some.inj h ▸ .handle hbatch
  | session a =>
    simp only [step, Option.bind_eq_some_iff, Option.map_eq_some_iff] at h
    obtain ⟨held, hheld, held', -, rfl⟩ := h
    exact .session hheld

/-! ## The invariant -/

/-- Everything that waits is of the current session, which is the last one
started. -/
structure Apart (s : Play) : Prop where
  length : s.origins.length = s.front.incoming.length
  origins : ∀ n ∈ s.origins, s.current = some n
  batch : ∀ e ∈ s.batch, e.shows = true → s.current = some s.batchOf
  held : s.front.session ≠ none → s.current = some s.started
  serves : s.Serves

theorem apart_init : Apart {} := by
  refine ⟨rfl, by simp, by simp, by simp, ?_⟩
  simp [Serves, Front.isServer, hostId]

/-- A session is started. -/
theorem Apart.starts {s : Play} (h : Apart s) {front : Front} {byHost : Bool} (hempty : s.front.incoming = [])
    (hspent : s.Spent) (hincoming : front.incoming = s.front.incoming) (hsession : front.session ≠ none)
    (hid : byHost = true ∨ front.uniqueId ≠ hostId) :
    Apart { s with front := front, started := s.started + 1, current := some (s.started + 1), byHost := byHost } := by
  have horigins : s.origins = [] := by
    have hlen := h.length
    rw [hempty] at hlen
    exact List.length_eq_zero_iff.1 hlen
  refine ⟨?_, ?_, ?_, fun _ => rfl, fun hserver => ⟨hsession, ?_⟩⟩
  · rw [horigins, hincoming, hempty]
    rfl
  · simp [horigins]
  · intro e he hshows
    rw [hspent e he] at hshows
    simp at hshows
  · rcases hid with hid | hid
    · exact hid
    · exact absurd (by simpa [Front.isServer] using hserver) hid

theorem apart_host {s : Play} (h : Apart s) (bound registered running : Bool)
    (hclean : s.Clean (.host bound registered running)) :
    Apart (s.starting true (s.front.host bound registered running)) := by
  unfold starting Front.host
  cases bound with
  | false => exact h
  | true =>
    obtain ⟨hempty, hspent⟩ := hclean rfl
    exact h.starts hempty hspent rfl (by simp) (.inl rfl)

theorem apart_join {s : Play} (h : Apart s) (valid bound itself running : Bool)
    (hclean : s.Clean (.join valid bound itself running)) :
    Apart (s.starting false (s.front.join valid bound itself running)) := by
  unfold starting Front.join Front.startJoin
  cases valid with
  | false => exact h
  | true =>
    cases bound with
    | false => exact h
    | true =>
      cases itself with
      | true => exact h
      | false =>
        obtain ⟨hempty, hspent, hid⟩ := hclean rfl rfl rfl
        exact h.starts hempty hspent rfl (by simp) (.inr hid)

theorem apart_close {s : Play} (hspent : s.Spent) :
    Apart { s with front := s.front.close, current := none, origins := [] } := by
  refine ⟨rfl, by simp, fun e he hshows => ?_, by simp [Front.close], ?_⟩
  · rw [hspent e he] at hshows
    simp at hshows
  · simp [Serves, Front.isServer, Front.close, hostId]

theorem apart_getPacket {s : Play} (h : Apart s) :
    Apart { s with front := s.front.popPacket.1, origins := s.origins.tail } := by
  have hlen := h.length
  unfold Front.popPacket
  cases hin : s.front.incoming with
  | nil =>
    rw [hin] at hlen
    have hnil := List.length_eq_zero_iff.1 hlen
    refine ⟨?_, ?_, h.batch, h.held, h.serves⟩
    · simp [hnil, hin]
    · simp [hnil]
  | cons packet rest =>
    rw [hin] at hlen
    refine ⟨?_, fun n hn => h.origins n (List.mem_of_mem_tail hn), h.batch, h.held, h.serves⟩
    simp [hlen]

theorem apart_poll {s : Play} (h : Apart s) :
    Apart { s with front := s.front.drain, batch := s.front.waiting, batchOf := s.started, emitting := false } := by
  have hdrain : s.front.drain.session ≠ none ↔ s.front.session ≠ none := by simp [Front.drain]
  refine ⟨h.length, h.origins, fun e he _ => ?_, fun hs => h.held (hdrain.1 hs), fun hserver => ?_⟩
  · refine h.held fun hnone => ?_
    have he : e ∈ s.front.waiting := he
    simp [Front.waiting, hnone] at he
  · exact ⟨hdrain.2 (h.serves hserver).1, (h.serves hserver).2⟩

theorem apart_handle {s : Play} (h : Apart s) {e : Event} {rest : List Event} (hbatch : s.batch = e :: rest)
    (hclean : s.Clean .handle) :
    Apart { s with
      front := s.front.handle e
      batch := rest
      emitting := e.signals
      origins := if e.packet?.isSome then s.origins ++ [s.batchOf] else s.origins } := by
  have hrest : ∀ e ∈ rest, e.shows = true → s.current = some s.batchOf := fun e he =>
    h.batch e (by rw [hbatch]; exact List.mem_cons_of_mem _ he)
  cases e with
  | ready id =>
    refine ⟨h.length, h.origins, hrest, h.held, fun hserver => ?_⟩
    have hid : id = hostId := of_decide_eq_true hserver
    have := hclean (by rw [hbatch, hid]; rfl)
    exact ⟨by simpa [Front.handle, Option.isSome_iff_ne_none] using this.1, this.2⟩
  | peerConnected id => exact ⟨h.length, h.origins, hrest, h.held, h.serves⟩
  | peerDisconnected id => exact ⟨h.length, h.origins, hrest, h.held, h.serves⟩
  | warning text => exact ⟨h.length, h.origins, hrest, h.held, h.serves⟩
  | packet q =>
    have hcurrent := h.batch (.packet q) (by simp [hbatch]) rfl
    refine ⟨?_, ?_, hrest, h.held, h.serves⟩
    · simp [Event.packet?, Front.handle, h.length]
    · intro n hn
      rcases List.mem_append.1 hn with hn | hn
      · exact h.origins n hn
      · rw [List.mem_singleton.1 hn]
        exact hcurrent
  | closed reason =>
    refine ⟨h.length, h.origins, hrest, by simp [Front.handle], fun hserver => ?_⟩
    simp [Front.isServer, Front.handle, hostId] at hserver

theorem apart_step {s s' : Play} {a : Action} (h : Apart s) (hclean : s.Clean a) (hs : step s a = some s') :
    Apart s' := by
  cases step_cases hs with
  | host => exact apart_host h _ _ _ hclean
  | join => exact apart_join h _ _ _ _ hclean
  | joinTicket => exact apart_join h _ _ _ _ hclean
  | close => exact apart_close hclean
  | getPacket => exact apart_getPacket h
  | poll => exact apart_poll h
  | handle hbatch => exact apart_handle h hbatch hclean
  | session hheld =>
    refine ⟨h.length, h.origins, h.batch, fun _ => h.held (by simp [hheld]), fun hserver => ⟨by simp, ?_⟩⟩
    exact (h.serves hserver).2

theorem Apart.own {s : Play} (h : Apart s) (a : Action) : s.Own a := by
  cases a with
  | getPacket =>
    intro p hp
    unfold Front.popPacket at hp
    have hlen := h.length
    cases hin : s.front.incoming with
    | nil => simp [hin] at hp
    | cons packet rest =>
      rw [hin] at hlen
      cases hor : s.origins with
      | nil => simp [hor] at hlen
      | cons n ns => exact ⟨n, rfl, h.origins n (by simp [hor])⟩
  | handle =>
    intro e he hpeer
    exact h.batch e (List.mem_of_mem_head? he) (by simp [Event.shows, hpeer])
  | _ => trivial

/-! ## With a session at hand -/

/-- Without a session, nothing waits that would show. -/
def Empty (s : Play) : Prop := s.front.session = none → s.front.incoming = [] ∧ s.Spent

theorem empty_starting {s : Play} (h : Empty s) {byHost : Bool} {answer : Front × Bool}
    (hanswer : s.front.Begins answer.1) : Empty (s.starting byHost answer) := by
  rcases hanswer with hsame | ⟨life, hsession, -⟩
  · unfold Empty Spent
    rw [starting_front, starting_batch, hsame]
    exact h
  · intro hnone
    rw [starting_front, hsession] at hnone
    simp at hnone

theorem empty_handle {s : Play} (h : Empty s) {e : Event} {rest : List Event} (hbatch : s.batch = e :: rest)
    (hlast : s.Last .handle) (origins : List Nat) :
    Empty { s with front := s.front.handle e, batch := rest, emitting := e.signals, origins := origins } := by
  have hrest : s.front.session = none → ∀ e ∈ rest, e.shows = false := fun hnone e he =>
    (h hnone).2 e (by rw [hbatch]; exact List.mem_cons_of_mem _ he)
  cases e with
  | packet q =>
    intro hnone
    have := (h hnone).2 (.packet q) (by simp [hbatch])
    simp [Event.shows, Event.packet?] at this
  | closed reason =>
    intro _
    have := hlast (by rw [hbatch]; rfl)
    rwa [hbatch] at this
  | _ => exact fun hnone => ⟨(h hnone).1, hrest hnone⟩

theorem empty_step {s s' : Play} {a : Action} (h : Empty s) (hmet : s.Clean a ∧ s.Last a) (hs : step s a = some s') :
    Empty s' := by
  cases step_cases hs with
  | host => exact empty_starting h (s.front.host_begins ..)
  | join => exact empty_starting h (s.front.join_begins ..)
  | joinTicket => exact empty_starting h (s.front.join_begins ..)
  | close => exact fun _ => ⟨rfl, hmet.1⟩
  | getPacket =>
    unfold Front.popPacket
    split
    · exact h
    · next hin =>
      intro hnone
      have hempty := (h hnone).1
      rw [hin] at hempty
      simp at hempty
  | poll =>
    intro hnone
    have hnone : s.front.session = none := by simpa [Front.drain] using hnone
    refine ⟨(h hnone).1, fun e he => ?_⟩
    have he : e ∈ s.front.waiting := he
    simp [Front.waiting, hnone] at he
  | handle hbatch => exact empty_handle h hbatch hmet.2 _
  | session hheld =>
    intro hnone
    simp at hnone

theorem Empty.held {s : Play} (h : Empty s) (a : Action) : s.Held a := by
  cases a with
  | getPacket =>
    intro p hp hnone
    unfold Front.popPacket at hp
    simp [(h hnone).1] at hp
  | handle =>
    intro e he hpeer hnone
    have := (h hnone).2 e (List.mem_of_mem_head? he)
    simp [Event.shows, hpeer] at this
  | _ => trivial

/-! ## Every run -/

/-- **Sessions stay apart.** In every sequence of calls, also of calls made
by signal handlers inside `poll`, whose steps all meet the condition: every
packet that is returned and every peer that is told of is of the current
session, and the peer is a server only with a session that `host` started.
When sessions also end with nothing waiting, the peer still holds that
session. -/
theorem sessions_apart {as : List Action} {s : Play} (h : Machine.run step {} as = some s)
    (hclean : Machine.Along step Clean {} as) :
    Machine.Along step Own {} as ∧ s.Serves ∧ (Machine.Along step Last {} as → Machine.Along step Held {} as) := by
  refine ⟨?_, ?_, fun hlast => ?_⟩
  · exact Machine.along_of_invariant (fun _ a hI _ => Apart.own hI a) (fun _ _ _ => apart_step) apart_init hclean
  · exact (Machine.run_invariant_along (I := Apart) (fun _ _ _ => apart_step) h hclean apart_init).serves
  · refine Machine.along_of_invariant (fun _ a hI _ => Empty.held hI a) (fun _ _ _ => empty_step) ?_ (hclean.and hlast)
    exact fun _ => ⟨rfl, by simp [Spent]⟩

/-- A client's session: its host answers, welcomes it and sends a packet. -/
def welcomed : List Action :=
  .session (.connected 0) :: Tasks.welcomed.map fun a => .session (.act a)

/-- A client joins, takes its packet, closes and joins again. -/
def oneByOne : List Action :=
  .join true true false true :: welcomed ++
    [.poll, .handle, .handle, .handle, .getPacket, .close, .join true true false true]

theorem sessions_apart_oneByOne :
    ∃ s, Machine.run step {} oneByOne = some s ∧ s.started = 2 ∧ s.front.current.isNone ∧
      Machine.Along step Own {} oneByOne ∧ s.Serves ∧ Machine.Along step Held {} oneByOne := by
  have hrun : ((Machine.run step {} oneByOne).map fun s => (s.started, s.front.current.isNone)) = some (2, true) := by
    decide +kernel
  obtain ⟨s, hs, he⟩ := Option.map_eq_some_iff.1 hrun
  have hclean : Machine.Along step Clean {} oneByOne := by decide +kernel
  have hlast : Machine.Along step Last {} oneByOne := by decide +kernel
  simp only [Prod.mk.injEq] at he
  obtain ⟨hown, hserves, hheld⟩ := sessions_apart hs hclean
  exact ⟨s, hs, he.1, he.2, hown, hserves, hheld hlast⟩

/-- When it is told of its host, the client joins another. -/
def rejoin : List Action :=
  .join true true false true :: welcomed ++
    [.poll, .handle, .handle, .close, .join true true false true, .handle]

/-- **A packet of the session before.** -/
theorem old_packet :
    ∃ s, Machine.run step {} rejoin = some s ∧ s.front.popPacket.2.map (·.data) = some [7] ∧
      s.origins.head? = some 1 ∧ s.current = some 2 ∧ ¬ s.Own .getPacket := by
  have hrun : ((Machine.run step {} rejoin).map fun s => (s.front.popPacket.2.map (·.data), s.origins.head?,
      s.current)) = some (some [7], some 1, some 2) := by
    decide +kernel
  obtain ⟨s, hs, he⟩ := Option.map_eq_some_iff.1 hrun
  simp only [Prod.mk.injEq] at he
  obtain ⟨hp, ho, hc⟩ := he
  refine ⟨s, hs, hp, ho, hc, fun hown => ?_⟩
  obtain ⟨p, hp, -⟩ := Option.map_eq_some_iff.1 hp
  obtain ⟨n, hn, hcn⟩ := hown p hp
  rw [ho] at hn
  rw [hc] at hcn
  exact absurd (hn.trans hcn.symm) (by decide)

end Play
end Gdiroh
