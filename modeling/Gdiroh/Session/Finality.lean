/-
The end of a session. `Closed` is to be the last event, "the session ended and
will produce nothing further". It comes from four places: a refused
registration, a runtime that is not running, a failed dial, and the session
task, which sends it when a client loses its host and again when it leaves its
loop. Losing the host does not end the loop (`closed_twice`), and leaving the
loop does not end the reader tasks, which send to the same queue.

`closed_is_final`: nothing follows a `Closed` in every run in which, after it,
no reader hands over a packet, no control message with an effect is taken and
the session is not closed once more.
-/
import Gdiroh.Session.Bracketing

namespace Gdiroh.Session

def Event.isClosed : Event → Bool
  | .closed _ => true
  | _ => false

/-- A `Closed` is out. -/
def hasClosed (events : List Event) : Bool := events.any Event.isClosed

/-- Nothing comes after a `Closed`. -/
def Final (events : List Event) : Prop := ∀ before reason after, events = before ++ .closed reason :: after → after = []

@[simp] theorem hasClosed_append (xs ys : List Event) : hasClosed (xs ++ ys) = (hasClosed xs || hasClosed ys) := by
  simp [hasClosed]

theorem final_of_not_hasClosed {events : List Event} (h : hasClosed events = false) : Final events := by
  rintro before reason after rfl
  simp [hasClosed, Event.isClosed] at h

/-- The first `Closed`. -/
theorem Final.closed {events : List Event} (h : hasClosed events = false) (reason : String) :
    Final (events ++ [.closed reason]) := by
  intro before r after he
  rcases List.append_eq_append_iff.1 he with ⟨ys, -, hn⟩ | ⟨ys, hb, hn⟩
  · cases ys with
    | nil =>
      rw [List.nil_append, List.cons.injEq] at hn
      exact hn.2.symm
    | cons y ys => simp at hn
  · cases ys with
    | nil =>
      rw [List.nil_append, List.cons.injEq] at hn
      exact hn.2
    | cons y ys =>
      rw [List.cons_append, List.cons.injEq] at hn
      simp [hb, ← hn.1, hasClosed, Event.isClosed] at h

theorem alist_eq_empty {α : Type} {β : α → Type} {l : AList β} (h : ∀ a, a ∉ l) : l = ∅ := by
  refine AList.ext (List.eq_nil_iff_forall_not_mem.2 fun x hx => h x.1 ?_)
  exact List.mem_map_of_mem hx

/-! ## One operation -/

namespace Op

/-- It sends a `Closed`. -/
def Closes : Op → Prop
  | .closed _ | .finish _ => True
  | _ => False

theorem exec_hasClosed {op : Op} (h : ¬ op.Closes) (s : State) : hasClosed (op.exec s).events = hasClosed s.events := by
  have hadds : ∀ {kind : Event → Prop} {t : State}, s.Adds kind t → (∀ e, kind e → e.isClosed = false) →
      hasClosed t.events = hasClosed s.events := by
    rintro kind t ⟨new, he, hk⟩ hno
    rw [he, hasClosed_append]
    have : hasClosed new = false := List.any_eq_false.2 fun e hm => by simp [hno e (hk e hm)]
    simp [this]
  cases op with
  | addLink peer c => rfl
  | controlTo peer control => rw [exec, State.controlTo, State.writeReliable_events]
  | announce peer => exact hadds (State.announce_adds s peer) fun e he => by rw [he]; rfl
  | forget peer => exact hadds (State.forget_adds s peer) fun e he => by rw [he]; rfl
  | unlink peer => rfl
  | ready id => exact hadds (State.Adds.emit s rfl) fun e he => by rw [← he]; rfl
  | closed reason => exact absurd trivial h
  | sendOne limits peer channel mode data =>
    refine hadds (State.sendOne_warns s limits peer channel mode data) fun e he => ?_
    obtain ⟨text, rfl⟩ := he
    rfl
  | dropLink peer => rw [exec, State.dropLink_events]
  | finish drained => exact absurd trivial h

/-- Only `add_link` adds a link. -/
theorem exec_links {op : Op} (h : ∀ peer c, op ≠ .addLink peer c) {s : State} {p : Int32}
    (hp : p ∈ (op.exec s).links) : p ∈ s.links := by
  cases op with
  | addLink peer c => exact absurd rfl (h peer c)
  | controlTo peer control => exact (State.controlTo_same s peer control).mem_links.1 hp
  | announce peer => exact (State.announce_wire s peer).links ▸ hp
  | forget peer => exact (State.forget_wire s peer).links ▸ hp
  | unlink peer => exact (AList.mem_erase.1 hp).2
  | ready id => exact hp
  | closed reason => exact hp
  | sendOne limits peer channel mode data => exact (State.sendOne_same s limits peer channel mode data).mem_links.1 hp
  | dropLink peer => exact (State.dropLink_same s peer).mem_links.1 hp
  | finish drained => simp [exec, State.finish, State.emit] at hp

theorem exec_isHost (op : Op) (s : State) : (op.exec s).isHost = s.isHost := by
  by_cases h : ∃ peer c, op = .addLink peer c
  · obtain ⟨peer, c, rfl⟩ := h
    rfl
  · exact (op.exec_readers s fun peer c he => h ⟨peer, c, he⟩).2

/-- With no links, these do nothing. -/
theorem exec_of_no_links {s : State} (h : s.links = ∅) (limits : Limits) (peer channel : Int32) (mode : Mode)
    (data : Bytes) : (Op.sendOne limits peer channel mode data).exec s = s ∧ (Op.dropLink peer).exec s = s := by
  have hl : s.links.lookup peer = none := by simp [h]
  constructor
  · cases mode with
    | reliable => simp [exec, State.sendOne, State.writeReliable, hl]
    | unreliable => simp [exec, State.sendOne, State.writeDatagram, hl]
    | unreliableOrdered => simp [exec, State.sendOne, State.writeDatagram, hl]
  · simp [exec, State.dropLink, hl]

end Op

instance (announced : Finset Int32) : ∀ c : Control, Decidable (c.Inert announced)
  | .welcome .. => isFalse id
  | .peerJoined id => inferInstanceAs (Decidable (id ∈ announced))
  | .peerLeft id => inferInstanceAs (Decidable (id ∉ announced))

/-! ## The session task and its readers -/

namespace Tasks

/-- The host's connection ends, and a client's task takes it in. -/
def hostLost : List Action := [.watch 0, .turn (.internal []), .tick, .tick, .tick]

/-- The control message that the internal arm would take. -/
def heads (t : Tasks) : Option Control :=
  match t.internal with
  | .control c :: _ => some c
  | _ => none

/-- After a `Closed`, the step hands over no packet, takes no control message
with an effect, and does not close the session once more. -/
def Over (t : Tasks) : Action → Prop
  | .arrive a => hasClosed t.state.events = true → t.handsOver a = none
  | .turn (.close _) => hasClosed t.state.events = false
  | .turn (.internal _) => hasClosed t.state.events = true → ∀ c ∈ t.heads, c.Inert t.state.announced
  | _ => True

instance : ∀ (t : Tasks) (a : Action), Decidable (t.Over a)
  | t, .arrive a => inferInstanceAs (Decidable (hasClosed t.state.events = true → t.handsOver a = none))
  | t, .turn (.close _) => inferInstanceAs (Decidable (hasClosed t.state.events = false))
  | t, .turn (.internal _) => inferInstanceAs
      (Decidable (hasClosed t.state.events = true → ∀ c ∈ t.heads, c.Inert t.state.announced))
  | _, .turn (.accept ..) | _, .turn (.send ..) | _, .turn (.disconnect _) | _, .tick | _, .watch _ => isTrue trivial

/-- What is left of a handler, before and after a `Closed`. -/
structure Winding (t : Tasks) : Prop where
  final : Final t.state.events
  last : ∀ before op after, t.todo = before ++ op :: after → op.Closes → after = []
  closing : ∀ reason, .closed reason ∈ t.todo → t.state.isHost = false ∧
    (t.state.links = ∅ ∨ t.todo.head? = some (.unlink hostId))
  finishing : ∀ drained, .finish drained ∈ t.todo → t.ended = true
  client : t.state.isHost = false → (∀ p ∈ t.state.links, p = hostId) ∧ ∀ p c, .addLink p c ∉ t.todo
  closed : hasClosed t.state.events = true → t.ended = true ∧ t.todo = [] ∨
    t.state.isHost = false ∧ t.state.links = ∅ ∧ ∀ op ∈ t.todo, op.exec t.state = t.state

theorem winding_hosting : Winding hosting where
  final := final_of_not_hasClosed rfl
  last := by simp [hosting]
  closing := by simp [hosting]
  finishing := by simp [hosting]
  client := by simp [hosting, State.hosting]
  closed := by simp [hosting, State.hosting, hasClosed, Event.isClosed]

theorem winding_joined (c : Connection) : Winding (joined c) where
  final := final_of_not_hasClosed rfl
  last := by simp [joined]
  closing := by simp [joined]
  finishing := by simp [joined]
  client := fun _ => by
    refine ⟨fun p hp => ?_, by simp [joined]⟩
    have hp : p ∈ (∅ : AList fun _ : Int32 => Link).insert hostId ⟨c, ∅, ∅, ∅⟩ := hp
    rcases (AList.mem_insert _).1 hp with he | hno
    · exact he
    · simp at hno
  closed := by simp [joined, State.joined, State.addLink, hasClosed]

/-- A handler none of whose operations closes. -/
theorem Winding.open {t t' : Tasks} (h : Winding t) (hstate : t'.state = t.state)
    (hno : ∀ op ∈ t'.todo, ¬ op.Closes) (hlink : t.state.isHost = false → ∀ p c, .addLink p c ∉ t'.todo)
    (hover : hasClosed t.state.events = true → t.state.links = ∅ → ∀ op ∈ t'.todo, op.exec t.state = t.state)
    (hended : t.ended = false) : Winding t' where
  final := hstate ▸ h.final
  last := fun before op after he hc => absurd hc (hno op (by simp [he]))
  closing := fun reason hm => absurd trivial (hno _ hm)
  finishing := fun drained hm => absurd trivial (hno _ hm)
  client := by
    rw [hstate]
    exact fun hr => ⟨(h.client hr).1, hlink hr⟩
  closed := by
    rw [hstate]
    intro hc
    rcases h.closed hc with ⟨he, -⟩ | ⟨hr, hl, -⟩
    · simp [hended] at he
    · exact .inr ⟨hr, hl, hover hc hl⟩

/-- The handler of a loss. -/
theorem lost_winding {t : Tasks} (h : Winding t) (hended : t.ended = false) (others : List Int32) (peer : Int32)
    (rest : List Internal) : Winding { t with todo := lostOps t.state others peer, internal := rest } := by
  by_cases hm : peer ∈ t.state.links
  · have hne : t.state.links ≠ ∅ := by
      intro he
      simp [he] at hm
    cases hr : t.state.isHost with
    | true =>
      refine h.open rfl (fun op hop => ?_) (by simp [hr]) (fun _ hl => absurd hl hne) hended
      simp only [lostOps, if_pos hm, hr, if_true, List.mem_cons, List.mem_map] at hop
      rcases hop with rfl | rfl | ⟨p, -, rfl⟩ <;> exact id
    | false =>
      have hpeer := (h.client hr).1 peer hm
      subst hpeer
      have hops : lostOps t.state others hostId =
          [.unlink hostId, .forget hostId, .closed "host disconnected"] := by
        simp [lostOps, hm, hr]
      have hno : hasClosed t.state.events = false := by
        by_contra hc
        rcases h.closed (by simpa using hc) with ⟨he, -⟩ | ⟨-, hl, -⟩
        · simp [hended] at he
        · exact hne hl
      refine ⟨h.final, ?_, fun _ _ => ⟨hr, .inr (by simp [hops])⟩, by simp [hops],
        fun _ => ⟨(h.client hr).1, by simp [hops]⟩, by simp [hno]⟩
      intro before op after he hcl
      simp only [hops] at he
      -- Of the three, only the last closes.
      rcases before with _ | ⟨_, _ | ⟨_, _ | ⟨_, before⟩⟩⟩
      · simp only [List.nil_append, List.cons.injEq] at he
        exact absurd hcl (he.1 ▸ id)
      · simp only [List.cons_append, List.nil_append, List.cons.injEq] at he
        exact absurd hcl (he.2.1 ▸ id)
      · simp only [List.cons_append, List.nil_append, List.cons.injEq] at he
        exact he.2.2.2.symm
      · simp at he
  · have hops : lostOps t.state others peer = [] := by simp [lostOps, hm]
    rw [hops]
    exact h.open rfl (by simp) (by simp) (by simp) hended

theorem start_winding {t t' : Tasks} {turn : Turn} (h : Winding t) (hm : t.Over (.turn turn)) (hended : t.ended = false)
    (hs : t.start turn = some t') : Winding t' := by
  have hstate := (start_state hs).1
  cases turn with
  | accept c existing =>
    simp only [start] at hs
    split at hs
    · next hg =>
      simp only [Option.some.injEq] at hs
      subst hs
      refine h.open rfl (fun op hop => ?_) (fun hr => by simp [hg.1] at hr) (fun hc hl => ?_) hended
      · simp only [welcomeOps, List.mem_cons, List.mem_append, List.mem_map, List.not_mem_nil, or_false] at hop
        rcases hop with rfl | rfl | ⟨p, -, rfl⟩ | rfl <;> exact id
      · rcases h.closed hc with ⟨he, -⟩ | ⟨hr, -⟩
        · simp [hended] at he
        · simp [hg.1] at hr
    · simp at hs
  | send limits keys target channel mode data =>
    simp only [start] at hs
    split at hs
    · simp only [Option.some.injEq] at hs
      subst hs
      have hops : ∀ op ∈ sendOps t.state limits keys target channel mode data, ∃ p,
          op = .sendOne limits p channel mode data := by
        intro op hop
        simp only [sendOps] at hop
        split at hop
        · obtain ⟨p, -, rfl⟩ := List.mem_map.1 hop
          exact ⟨p, rfl⟩
        · exact ⟨_, List.mem_singleton.1 hop⟩
      refine h.open rfl (fun op hop => ?_) (fun _ p c hop => ?_) (fun _ hl op hop => ?_) hended
      · obtain ⟨p, rfl⟩ := hops op hop
        exact id
      · obtain ⟨q, hq⟩ := hops _ hop
        simp at hq
      · obtain ⟨p, rfl⟩ := hops op hop
        exact (Op.exec_of_no_links hl limits p channel mode data).1
    · simp at hs
  | disconnect peer =>
    simp only [start, Option.some.injEq] at hs
    subst hs
    refine h.open rfl (fun op hop => ?_) (by simp) (fun _ hl op hop => ?_) hended
    · rw [List.mem_singleton.1 hop]
      exact id
    · rw [List.mem_singleton.1 hop]
      exact (Op.exec_of_no_links hl (fun _ => none) peer 0 .reliable []).2
  | close drained =>
    simp only [start, Option.some.injEq] at hs
    subst hs
    have hno : hasClosed t.state.events = false := hm
    refine ⟨h.final, fun before op after he _ => ?_, by simp, fun _ _ => rfl, fun hr => ⟨(h.client hr).1, by simp⟩,
      by simp [hno]⟩
    cases before with
    | nil => exact ((List.cons.injEq .. ▸ he : _ ∧ _).2).symm
    | cons b before => simp at he
  | internal others =>
    simp only [start] at hs
    split at hs
    · simp at hs
    · next c rest hint =>
      simp only [Option.some.injEq] at hs
      subst hs
      refine h.open rfl (fun op hop => ?_) (fun _ p q hop => ?_) (fun hc _ op hop => ?_) hended
      · cases c <;> simp only [applyOps, List.mem_cons, List.mem_map, List.not_mem_nil, or_false] at hop
        · rcases hop with rfl | rfl | ⟨p, -, rfl⟩ <;> exact id
        · exact hop ▸ id
        · exact hop ▸ id
      · cases c <;> simp [applyOps] at hop
      · have hin := hm hc c (by simp [heads, hint])
        cases c with
        | welcome yourId peers => exact absurd hin id
        | peerJoined id =>
          rw [List.mem_singleton.1 hop]
          exact State.apply_inert (c := .peerJoined id) hin
        | peerLeft id =>
          rw [List.mem_singleton.1 hop]
          exact State.apply_inert (c := .peerLeft id) hin
    · next peer rest hint =>
      split at hs
      · simp only [Option.some.injEq] at hs
        subst hs
        exact lost_winding h hended others peer _
      · simp at hs

/-- The task does one more operation. -/
theorem tick_winding {t : Tasks} (h : Winding t) {op : Op} {rest : List Op} (htodo : t.todo = op :: rest) :
    Winding { t with state := op.exec t.state, todo := rest } := by
  have hlast : ∀ before o after, rest = before ++ o :: after → o.Closes → after = [] := fun before o after he =>
    h.last (op :: before) o after (by rw [htodo, he, List.cons_append])
  have hmem : ∀ {o}, o ∈ rest → o ∈ t.todo := fun ho => htodo ▸ List.mem_cons_of_mem op ho
  cases hc : hasClosed t.state.events with
  | true =>
    rcases h.closed hc with ⟨-, hnil⟩ | ⟨hr, hl, hnop⟩
    · simp [htodo] at hnil
    have hsame := hnop op (by simp [htodo])
    rw [hsame]
    exact ⟨h.final, hlast, fun reason hm => ⟨hr, .inl hl⟩, fun d hm => h.finishing d (hmem hm),
      fun _ => ⟨(h.client hr).1, fun p c hm => (h.client hr).2 p c (hmem hm)⟩,
      fun _ => .inr ⟨hr, hl, fun o ho => hnop o (hmem ho)⟩⟩
  | false =>
    by_cases hcl : op.Closes
    · have hnil : rest = [] := h.last [] op rest htodo hcl
      subst hnil
      cases op with
      | closed reason =>
        obtain ⟨hr, hl⟩ := h.closing reason (by simp [htodo])
        have hl : t.state.links = ∅ := hl.resolve_right (by simp [htodo])
        exact ⟨Final.closed hc reason, by simp, by simp, by simp, fun hr => ⟨(h.client hr).1, by simp⟩,
          fun _ => .inr ⟨hr, hl, by simp⟩⟩
      | finish drained =>
        have hended := h.finishing drained (by simp [htodo])
        exact ⟨Final.closed hc _, by simp, by simp, by simp, fun _ => ⟨by simp [Op.exec, State.finish, State.emit], by simp⟩,
          fun _ => .inl ⟨hended, rfl⟩⟩
      | _ => exact absurd hcl id
    · have hno : hasClosed (op.exec t.state).events = false := (op.exec_hasClosed hcl t.state).trans hc
      have hkept : t.state.isHost = false → ∀ {p}, p ∈ (op.exec t.state).links → p ∈ t.state.links := by
        intro hr p
        refine Op.exec_links fun peer c he => (h.client hr).2 peer c ?_
        simp [htodo, he]
      refine ⟨final_of_not_hasClosed hno, hlast, fun reason hm => ?_, fun d hm => h.finishing d (hmem hm),
        fun hr => ?_, by simp [hno]⟩
      · obtain ⟨hr, hl⟩ := h.closing reason (hmem hm)
        refine ⟨(op.exec_isHost t.state).trans hr, .inl (alist_eq_empty fun p hp => ?_)⟩
        rcases hl with hl | hhead
        · have := hkept hr hp
          simp [hl] at this
        · have hop : op = .unlink hostId := by simpa [htodo] using hhead
          subst hop
          have hp : p ∈ t.state.links.erase hostId := hp
          exact (AList.mem_erase.1 hp).1 ((h.client hr).1 p (hkept hr hp))
      · have hr : t.state.isHost = false := (op.exec_isHost t.state).symm.trans hr
        exact ⟨fun p hp => (h.client hr).1 p (hkept hr hp), fun p c hm => (h.client hr).2 p c (hmem hm)⟩

theorem winding_step {t t' : Tasks} {a : Action} (h : Winding t) (hm : t.Over a) (hs : step t a = some t') :
    Winding t' := by
  cases a with
  | turn turn =>
    simp only [step] at hs
    split at hs
    · next hg => exact start_winding h hm hg.2 hs
    · simp at hs
  | tick =>
    simp only [step] at hs
    split at hs
    · simp at hs
    · next htodo => rw [← Option.some.inj hs]; exact tick_winding h htodo
  | watch c =>
    simp only [step] at hs
    split at hs
    · simp at hs
    split at hs
    · simp at hs
    · rw [← Option.some.inj hs]
      exact ⟨h.final, h.last, h.closing, h.finishing, h.client, h.closed⟩
  | arrive a =>
    simp only [step, Option.map_eq_some_iff, Prod.exists] at hs
    obtain ⟨arrivals, rep, ha, rfl⟩ := hs
    cases rep with
    | none => exact ⟨h.final, h.last, h.closing, h.finishing, h.client, h.closed⟩
    | some rep =>
      cases rep with
      | control c => exact ⟨h.final, h.last, h.closing, h.finishing, h.client, h.closed⟩
      | packet p =>
        have hno : hasClosed t.state.events = false := by
          by_contra hc
          have hnone : t.handsOver a = none := hm (by simpa using hc)
          have hp := handsOver_of_step ha
          simp [hnone] at hp
        have hno' : hasClosed (t.state.events ++ [.packet p]) = false := by
          rw [hasClosed_append, hno]
          rfl
        refine ⟨final_of_not_hasClosed hno', h.last, h.closing, h.finishing, h.client, fun hc => ?_⟩
        have hc : hasClosed (t.state.events ++ [.packet p]) = true := hc
        rw [hno'] at hc
        simp at hc

end Tasks

/-! ## A session from its start -/

/-- A session: one that is still dialling, one whose task runs, and one that
has no task. -/
inductive Life where
  | dialling
  | running (t : Tasks)
  | settled (events : List Event)

namespace Life

inductive Act where
  /-- The dial is answered. -/
  | connected (c : Connection)
  /-- The dial fails. -/
  | failed (text : String)
  | act (a : Tasks.Action)

/-- `Session::host`: whether the ALPN was free, and the runtime up. -/
def host (registered running : Bool) : Life :=
  if ¬ registered then .settled [.closed "this endpoint is already hosting"]
  else if ¬ running then .settled [.closed "the network runtime is not running"]
  else .running .hosting

/-- `Session::join`: whether the runtime was up. -/
def join (running : Bool) : Life :=
  if running then .dialling else .settled [.closed "the network runtime is not running"]

def events : Life → List Event
  | .dialling => []
  | .running t => t.state.events
  | .settled events => events

def step : Life → Act → Option Life
  | .dialling, .connected c => some (.running (.joined c))
  | .dialling, .failed text => some (.settled [.closed text])
  | .running t, .act a => (t.step a).map .running
  | _, _ => none

def Over : Life → Act → Prop
  | .running t, .act a => t.Over a
  | _, _ => True

instance : ∀ (l : Life) (a : Act), Decidable (l.Over a)
  | .running t, .act a => inferInstanceAs (Decidable (t.Over a))
  | .running _, .connected _ | .running _, .failed _ | .dialling, _ | .settled _, _ => isTrue trivial

/-- Nothing follows a `Closed`, nor will. -/
def Winding : Life → Prop
  | .dialling => True
  | .running t => t.Winding
  | .settled events => Final events

theorem final_singleton (reason : String) : Final [.closed reason] :=
  @Final.closed [] rfl reason

theorem winding_step {l l' : Life} {a : Act} (h : l.Winding) (hm : l.Over a) (hs : step l a = some l') : l'.Winding := by
  cases l with
  | dialling =>
    cases a with
    | connected c => exact Option.some.inj hs ▸ Tasks.winding_joined c
    | failed text => exact Option.some.inj hs ▸ final_singleton text
    | act a => simp [step] at hs
  | running t =>
    cases a with
    | act a =>
      simp only [step, Option.map_eq_some_iff] at hs
      obtain ⟨t', hs, rfl⟩ := hs
      exact Tasks.winding_step h hm hs
    | connected c => simp [step] at hs
    | failed text => simp [step] at hs
  | settled events => cases a <;> simp [step] at hs

/-- **`Closed` is final**, for every session: in every run in which, once it
is out, no reader hands over a packet, the session task takes no control
message with an effect, and it is not closed once more. -/
theorem closed_is_final {l₀ l : Life} (h₀ : (∃ registered running, l₀ = host registered running) ∨ ∃ running, l₀ = join running)
    {as : List Act} (h : Machine.run step l₀ as = some l) (hG : Machine.Along step Over l₀ as) : Final l.events := by
  have hstart : l₀.Winding := by
    rcases h₀ with ⟨registered, running, rfl⟩ | ⟨running, rfl⟩
    · unfold host
      split
      · exact final_singleton _
      split
      · exact final_singleton _
      · exact Tasks.winding_hosting
    · unfold join
      split
      · trivial
      · exact final_singleton _
  have hl := Machine.run_invariant_along (I := Winding) (fun s a s' hI hG hs => winding_step hI hG hs) h hG hstart
  cases l with
  | dialling => exact final_of_not_hasClosed rfl
  | running t => exact hl.final
  | settled events => exact hl

/-- A client is welcomed, loses its host, and hears no more of it. -/
theorem closed_is_final_hostLost :
    let as : List Act := .connected 0 :: (Tasks.welcomed ++ Tasks.hostLost ++ [Tasks.Action.turn (.disconnect 1), .tick]).map .act
    ∃ l, Machine.run step (join true) as = some l ∧
      l.events = [.ready 2, .peerConnected 1, .packet ⟨1, 0, .reliable, [7]⟩, .peerDisconnected 1,
        .closed "host disconnected"] ∧ Final l.events := by
  intro as
  have hrun : (Machine.run step (join true) as).map events = some [.ready 2, .peerConnected 1,
      .packet ⟨1, 0, .reliable, [7]⟩, .peerDisconnected 1, .closed "host disconnected"] := by
    decide +kernel
  have hG : Machine.Along step Over (join true) as := by decide +kernel
  obtain ⟨l, hl, he⟩ := Option.map_eq_some_iff.1 hrun
  exact ⟨l, hl, he, closed_is_final (.inr ⟨true, rfl⟩) hl hG⟩

/-- A client loses its host and is closed. -/
theorem closed_twice :
    ∃ l, Machine.run step (join true) (.connected 0 :: (Tasks.hostLost ++ [Tasks.Action.turn (.close []), .tick]).map .act) = some l ∧
      l.events = [.closed "host disconnected", .closed "session closed"] ∧ ¬ Final l.events := by
  have hrun : (Machine.run step (join true) (.connected 0 :: (Tasks.hostLost ++ [Tasks.Action.turn (.close []), .tick]).map .act)).map
      events = some [.closed "host disconnected", .closed "session closed"] := by
    decide +kernel
  obtain ⟨l, hl, he⟩ := Option.map_eq_some_iff.1 hrun
  refine ⟨l, hl, he, fun hf => ?_⟩
  simpa using hf [] _ _ he

end Life
end Gdiroh.Session
