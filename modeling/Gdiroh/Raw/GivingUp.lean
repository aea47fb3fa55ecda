/-
Whether giving up a raw connection closes it. The pump's tasks each have a
clone of the handle and wait on the connection, so once they run it does not
close because others let go: not when script drops its last reference, and
not when it closes the object while the `Opened` with its handle still waits
(`stays_open`).

`given_up_iff` says exactly when a connection given up is closed, or will be
by what its tasks still do: when `close` finds the handle there, the
connection has ended, or the pump is not started and will not be.
-/
import Gdiroh.Raw.Connection

namespace Gdiroh.Raw

namespace IrohConnection

/-- Only `Opened` brings the handle, and nothing brings back the receiver. -/
theorem handle_holds (o : IrohConnection) (e : Event) :
    ((o.handle e).connection = true → e = .opened ∨ o.connection = true) ∧
      ((o.handle e).events = o.events ∨ (o.handle e).events = none) := by
  cases e with
  | opened => exact ⟨fun _ => .inl rfl, .inl rfl⟩
  | stream id => exact ⟨.inr, .inl rfl⟩
  | datagram data => exact ⟨.inr, .inl rfl⟩
  | closed reason => exact ⟨fun h => by simp [handle, emitLater] at h, .inr rfl⟩

theorem handles_hold (pending : List Event) (o : IrohConnection) :
    ((pending.foldl handle o).connection = true → .opened ∈ pending ∨ o.connection = true) ∧
      ((pending.foldl handle o).events = o.events ∨ (pending.foldl handle o).events = none) := by
  induction pending generalizing o with
  | nil => exact ⟨.inr, .inl rfl⟩
  | cons e pending ih =>
    obtain ⟨hconnection, hevents⟩ := ih (o.handle e)
    obtain ⟨hhandle, hkeep⟩ := handle_holds o e
    rw [List.foldl_cons]
    constructor
    · intro h
      rcases hconnection h with hm | hc
      · exact .inl (List.mem_cons_of_mem e hm)
      · rcases hhandle hc with rfl | hc
        · exact .inl List.mem_cons_self
        · exact .inr hc
    · rcases hevents with he | he
      · rw [he]
        exact hkeep
      · exact .inr he

/-- The object has the handle, or is about to. -/
def holds (o : IrohConnection) : Prop := (∃ queue, o.events = some queue ∧ .opened ∈ queue) ∨ o.connection = true

theorem drainPending_holds {o : IrohConnection} (h : o.drainPending.holds) : o.holds := by
  unfold drainPending at h
  cases he : o.events with
  | none =>
    rw [he] at h
    exact h
  | some pending =>
    rw [he] at h
    obtain ⟨hconnection, hevents⟩ := handles_hold pending { o with events := some [] }
    rcases h with ⟨queue, hq, hm⟩ | hc
    · rcases hevents with hnil | hnone
      · rw [hnil] at hq
        rw [← Option.some.inj hq] at hm
        simp at hm
      · rw [hnone] at hq
        simp at hq
    · exact (hconnection hc).imp_left fun hm => ⟨pending, he, hm⟩

theorem recvBlocking_holds {o o' : IrohConnection} (hs : o.recvBlocking = some o') (h : o'.holds) : o.holds := by
  unfold recvBlocking at hs
  split at hs
  · next data rest he =>
    rw [← Option.some.inj hs] at h
    rcases h with ⟨queue, hq, hm⟩ | hc
    · obtain rfl := Option.some.inj hq
      exact .inl ⟨_, he, List.mem_cons_of_mem _ hm⟩
    · exact .inr hc
  · next e rest _ he =>
    rw [← Option.some.inj hs] at h
    obtain ⟨hconnection, hevents⟩ := handle_holds { o with events := some rest } e
    rcases h with ⟨queue, hq, hm⟩ | hc
    · rcases hevents with hsome | hnone
      · rw [hsome] at hq
        obtain rfl := Option.some.inj hq
        exact .inl ⟨_, he, List.mem_cons_of_mem _ hm⟩
      · rw [hnone] at hq
        simp at hq
    · rcases hconnection hc with rfl | hc
      · exact .inl ⟨_, he, List.mem_cons_self⟩
      · exact .inr hc
  · simp at hs

end IrohConnection

namespace Conn

/-- Script has given the connection up. -/
def givenUp (c : Conn) : Prop := c.closed = true ∨ c.dropped = true

/-- Given up, established and open, and whatever the tasks still do, it
stays open. -/
def Stuck (c : Conn) : Prop :=
  c.givenUp ∧ c.isOpen = true ∧
    ∀ as t, (∀ a ∈ as, a.isTask = true) → Machine.run step c as = some t → t.isOpen = true

/-- The pump runs, or is about to be started. -/
def pumped (c : Conn) : Prop := c.dial = .sent ∨ c.watcher = true

instance (c : Conn) : Decidable c.pumped := inferInstanceAs (Decidable (_ ∨ _))

/-- Script gives up the connection only when it has ended, when nothing is
pumped, or by a `close` that has the handle. -/
def Released (c : Conn) : Act → Prop
  | .close _ => c.ended.isSome = true ∨ c.object.connection = true ∨ ¬ c.pumped
  | .drop => c.ended.isSome = true ∨ ¬ c.pumped
  | _ => True

instance (c : Conn) : ∀ a, Decidable (c.Released a)
  | .close _ => inferInstanceAs (Decidable (_ ∨ _))
  | .drop => inferInstanceAs (Decidable (_ ∨ _))
  | .answered | .refused _ | .opened | .pump | .stream _ | .datagram _ | .ends _ | .accept | .queueStream
  | .stopAccepting | .read | .queueDatagram | .stopReading | .watch | .drain | .recv | .openStream
  | .streamOpened => isTrue trivial

/-! ## The invariant -/

/-- Who has a clone when the connection has not ended: all but the dial task
and an object without a runtime have it beside the pump. -/
structure Kept (c : Conn) : Prop where
  established : c.dial = .connected ∨ c.pumped → c.established = true
  released : c.givenUp → c.object.events = none ∧ c.object.connection = false
  tasks : c.ended = none → c.acceptor ≠ .off ∨ c.reader ≠ .off ∨ 0 < c.opening → c.pumped
  object : c.ended = none → c.running = true → c.object.holds → c.pumped

theorem kept_dialled (running tree : Bool) : Kept (dialled running tree) := by
  cases running with
  | true => constructor <;> simp [dialled, pumped, givenUp, IrohConnection.holds]
  | false => constructor <;> simp [dialled, pumped, givenUp, IrohConnection.holds]

theorem kept_accepted (running tree : Bool) : Kept (accepted running tree) := by
  cases running with
  | true => constructor <;> simp [accepted, pumped, givenUp, IrohConnection.holds]
  | false => constructor <;> simp [accepted, pumped, givenUp, IrohConnection.holds]

/-- Steps that leave the object, the dial task and the watcher alone. -/
theorem Kept.same {c c' : Conn} (h : Kept c) (hobject : c'.object = c.object) (hdial : c'.dial = c.dial)
    (hwatcher : c'.watcher = c.watcher) (hrest : c'.established = c.established ∧ c'.running = c.running ∧
      c'.closed = c.closed ∧ c'.dropped = c.dropped) (hended : c'.ended = none → c.ended = none)
    (htasks : c.ended = none → c'.acceptor ≠ .off ∨ c'.reader ≠ .off ∨ 0 < c'.opening → c.pumped) : Kept c' := by
  obtain ⟨hest, hrunning, hclosed, hdropped⟩ := hrest
  have hpumped : c'.pumped ↔ c.pumped := by rw [pumped, pumped, hdial, hwatcher]
  refine ⟨fun hp => ?_, fun hg => ?_, fun he ht => ?_, fun he hr ho => ?_⟩
  · rw [hest]
    rw [hdial] at hp
    exact h.established (hp.imp_right hpumped.1)
  · rw [hobject]
    rw [givenUp, hclosed, hdropped] at hg
    exact h.released hg
  · exact hpumped.2 (htasks (hended he) ht)
  · rw [hobject] at ho
    exact hpumped.2 (h.object (hended he) (hrunning ▸ hr) ho)

/-- Sending anything but `Opened`. -/
theorem Kept.send {c : Conn} (h : Kept c) {e : Event} (he : e ≠ .opened) : Kept (c.send e) := by
  refine ⟨?_, ?_, ?_, ?_⟩
  · simpa [pumped] using h.established
  · simpa [givenUp] using h.released
  · simpa [pumped] using h.tasks
  · intro hended hrunning ho
    rw [send_ended] at hended
    rw [send_running] at hrunning
    have hp := h.object hended hrunning
    simp only [pumped, send_dial, send_watcher] at hp ⊢
    refine hp ?_
    unfold IrohConnection.holds at ho ⊢
    rw [send_events, send_connection] at ho
    refine ho.imp_left ?_
    rintro ⟨queue, hq, hm⟩
    obtain ⟨old, hold, rfl⟩ := Option.map_eq_some_iff.1 hq
    refine ⟨old, hold, ?_⟩
    rcases List.mem_append.1 hm with hm | hm
    · exact hm
    · exact absurd (List.mem_singleton.1 hm).symm he

/-- The object handles something that waits. -/
theorem Kept.handles {c : Conn} (h : Kept c) {o : IrohConnection}
    (hreleased : c.object.events = none → o.events = none ∧ o.connection = c.object.connection)
    (hobject : o.holds → c.object.holds) : Kept { c with object := o } := by
  refine ⟨h.established, fun hg => ?_, h.tasks, fun he hr ho => h.object he hr (hobject ho)⟩
  obtain ⟨he, hc⟩ := h.released hg
  obtain ⟨he', hc'⟩ := hreleased he
  exact ⟨he', hc'.trans hc⟩

/-- Script lets go of the object's part. -/
theorem Kept.gives {c c' : Conn} (h : Kept c) (hobject : c'.object = c.object.close) (hdial : c'.dial = c.dial)
    (hwatcher : c'.watcher = c.watcher) (hest : c'.established = c.established)
    (htasks : c'.acceptor = c.acceptor ∧ c'.reader = c.reader ∧ c'.opening = c.opening)
    (hended : c'.ended = none → c.ended = none) : Kept c' := by
  obtain ⟨hacceptor, hreader, hopening⟩ := htasks
  have hpumped : c'.pumped ↔ c.pumped := by rw [pumped, pumped, hdial, hwatcher]
  refine ⟨fun hp => ?_, fun _ => ?_, fun he ht => ?_, fun _ _ ho => ?_⟩
  · rw [hest]
    rw [hdial] at hp
    exact h.established (hp.imp_right hpumped.1)
  · rw [hobject]
    exact ⟨rfl, rfl⟩
  · rw [hacceptor, hreader, hopening] at ht
    exact hpumped.2 (h.tasks (hended he) ht)
  · rw [hobject] at ho
    simp [IrohConnection.holds, IrohConnection.close] at ho

theorem kept_opened {c : Conn} (h : Kept c) (hdial : c.dial = .connected) :
    Kept ({ c with dial := if c.object.events.isSome then .sent else .over }.send .opened) := by
  have hest := h.established (.inl hdial)
  cases hev : c.object.events with
  | none =>
    -- Nothing is sent, and the clone of the dial task goes.
    have hwatcher : c.pumped → c.watcher = true := by simp [pumped, hdial]
    refine ⟨fun _ => ?_, ?_, fun he ht => ?_, fun he hr ho => ?_⟩
    · simpa using hest
    · simpa [givenUp, hev] using h.released
    · simp only [send_ended, send_acceptor, send_reader, send_opening] at he ht
      simpa [pumped] using hwatcher (h.tasks he ht)
    · simp only [send_ended, send_running] at he hr
      have ho : c.object.holds := by simpa [IrohConnection.holds, hev] using ho
      simpa [pumped] using hwatcher (h.object he hr ho)
  | some queue =>
    have hpumped : ({ c with dial := if (some queue).isSome then .sent else .over }.send .opened).pumped := by
      simp [pumped]
    refine ⟨fun _ => ?_, fun hg => ?_, fun _ _ => hpumped, fun _ _ _ => hpumped⟩
    · simpa using hest
    · have hg : c.givenUp := by simpa [givenUp] using hg
      have hnone := (h.released hg).1
      rw [hev] at hnone
      simp at hnone

theorem kept_step {c c' : Conn} {a : Act} (h : Kept c) (hs : step c a = some c') : Kept c' := by
  cases step_cases hs with
  | answered hd =>
    have hpumped : { c with dial := Dial.connected, established := true }.pumped ↔ c.pumped := by
      simp [pumped, hd]
    exact ⟨fun _ => rfl, h.released, fun he ht => hpumped.2 (h.tasks he ht),
      fun he hr ho => hpumped.2 (h.object he hr ho)⟩
  | refused hd =>
    refine Kept.send ?_ (by simp)
    have hpumped : { c with dial := Dial.over }.pumped ↔ c.pumped := by simp [pumped, hd]
    exact ⟨fun hp => h.established (.inr (hpumped.1 (hp.resolve_left (by simp)))), h.released,
      fun he ht => hpumped.2 (h.tasks he ht), fun he hr ho => hpumped.2 (h.object he hr ho)⟩
  | opened hd => exact kept_opened h hd
  | pump hd =>
    exact ⟨fun _ => h.established (.inr (.inl hd)), h.released, fun _ _ => .inr rfl, fun _ _ _ => .inr rfl⟩
  | stream | datagram => exact h.same rfl rfl rfl ⟨rfl, rfl, rfl, rfl⟩ id h.tasks
  | ends => exact h.same rfl rfl rfl ⟨rfl, rfl, rfl, rfl⟩ (by simp) h.tasks
  | accept hwait hq =>
    exact h.same rfl rfl rfl ⟨rfl, rfl, rfl, rfl⟩ id fun he _ => h.tasks he (.inl (by simp [hwait]))
  | queueStream hhold =>
    refine Kept.send ?_ (by simp)
    exact h.same rfl rfl rfl ⟨rfl, rfl, rfl, rfl⟩ id fun he _ => h.tasks he (.inl (by simp [hhold]))
  | stopAccepting =>
    refine h.same rfl rfl rfl ⟨rfl, rfl, rfl, rfl⟩ id fun he ht => h.tasks he (.inr ?_)
    exact ht.resolve_left (by simp)
  | read hwait hq =>
    exact h.same rfl rfl rfl ⟨rfl, rfl, rfl, rfl⟩ id fun he _ => h.tasks he (.inr (.inl (by simp [hwait])))
  | queueDatagram hhold =>
    refine Kept.send ?_ (by simp)
    exact h.same rfl rfl rfl ⟨rfl, rfl, rfl, rfl⟩ id fun he _ => h.tasks he (.inr (.inl (by simp [hhold])))
  | stopReading =>
    refine h.same rfl rfl rfl ⟨rfl, rfl, rfl, rfl⟩ id fun he ht => h.tasks he (ht.imp_right fun ht => .inr ?_)
    exact ht.resolve_left (by simp)
  | watch hw hended =>
    refine Kept.send ?_ (by simp)
    refine ⟨fun hp => h.established (hp.imp_right (·.imp_right fun _ => hw)), h.released, fun he => ?_,
      fun he => ?_⟩
    · have he : c.ended = none := he
      simp [hended] at he
    · have he : c.ended = none := he
      simp [hended] at he
  | drain =>
    refine h.handles (fun hnone => ?_) IrohConnection.drainPending_holds
    simp [IrohConnection.drainPending, hnone]
  | recv hdropped hrecv =>
    refine h.handles (fun hnone => ?_) (IrohConnection.recvBlocking_holds hrecv)
    simp [IrohConnection.recvBlocking, hnone] at hrecv
  | openStream hdropped hc =>
    refine h.same rfl rfl rfl ⟨rfl, rfl, rfl, rfl⟩ id fun he ht => ?_
    by_cases hr : c.running = true
    · exact h.object he hr (.inr hc)
    · exact h.tasks he (by simpa [hr] using ht)
  | streamOpened hpos =>
    exact h.same rfl rfl rfl ⟨rfl, rfl, rfl, rfl⟩ id fun he _ => h.tasks he (.inr (.inr hpos))
  | close =>
    refine h.gives rfl rfl rfl rfl ⟨rfl, rfl, rfl⟩ fun he => ?_
    split at he
    · simp at he
    · exact he
  | drop => exact h.gives rfl rfl rfl rfl ⟨rfl, rfl, rfl⟩ id

/-! ## Stuck is pumped -/

/-- The tasks neither end the connection nor stop the pump. -/
theorem task_step {c c' : Conn} {a : Act} (ha : a.isTask = true) (hs : step c a = some c') :
    c'.established = c.established ∧ c'.ended = c.ended ∧ (c.ended = none → c.pumped → c'.pumped) := by
  cases step_cases hs with
  | opened hd =>
    refine ⟨by simp, by simp, fun _ hp => .inr ?_⟩
    simpa using hp.resolve_left (by simp [hd])
  | pump => exact ⟨rfl, rfl, fun _ _ => .inr rfl⟩
  | accept | stopAccepting | read | stopReading | streamOpened => exact ⟨rfl, rfl, fun _ hp => hp⟩
  | queueStream | queueDatagram => simp [pumped]
  | watch hw hended => simp [hended]
  | _ => simp [Act.isTask] at ha

theorem held_of_pumped {c : Conn} (h : c.pumped) : c.held = true := by
  rcases h with h | h
  · simp [held, h]
  · simp [held, h]

theorem isOpen_of_pumped {c : Conn} (h : Kept c) (hended : c.ended = none) (hp : c.pumped) : c.isOpen = true := by
  simp [isOpen, h.established (.inr hp), hended, held_of_pumped hp]

/-- While it is pumped, whatever the tasks do, it stays open. -/
theorem open_of_pumped {c t : Conn} {as : List Act} (h : Kept c) (hended : c.ended = none) (hp : c.pumped)
    (ha : ∀ a ∈ as, a.isTask = true) (hs : Machine.run step c as = some t) : t.isOpen = true := by
  induction as generalizing c with
  | nil =>
    rw [Machine.run_nil] at hs
    exact Option.some.inj hs ▸ isOpen_of_pumped h hended hp
  | cons a as ih =>
    obtain ⟨u, hu, ht⟩ := Machine.run_cons.1 hs
    obtain ⟨-, hended', hp'⟩ := task_step (ha a (by simp)) hu
    exact ih (kept_step h hu) (hended'.trans hended) (hp' hended hp) (fun b hb => ha b (by simp [hb])) ht

/-- A connection given up is held by nobody, unless it is pumped or the dial
task is about to find the receiver gone. -/
theorem held_of_givenUp {c : Conn} (h : Kept c) (hg : c.givenUp) (hended : c.ended = none) (hp : ¬ c.pumped) :
    c.held = true ↔ c.dial = .connected := by
  obtain ⟨hevents, hconnection⟩ := h.released hg
  have hno := fun ht => hp (h.tasks hended ht)
  have htasks : c.acceptor = .off ∧ c.reader = .off ∧ c.opening = 0 := by
    refine ⟨?_, ?_, ?_⟩
    · by_contra hne
      exact hno (.inl hne)
    · by_contra hne
      exact hno (.inr (.inl hne))
    · by_contra hne
      exact hno (.inr (.inr (Nat.pos_of_ne_zero hne)))
  obtain ⟨hacceptor, hreader, hopening⟩ := htasks
  unfold pumped at hp
  rw [not_or] at hp
  simp [held, hevents, hconnection, hacceptor, hreader, hopening, hp.1, hp.2]

/-- **Stuck is pumped.** A connection given up stays open exactly when the
pump runs, or is about to. -/
theorem stuck_iff {c : Conn} (h : Kept c) : c.Stuck ↔ c.givenUp ∧ c.ended = none ∧ c.pumped := by
  constructor
  · rintro ⟨hg, ho, hall⟩
    have hended : c.ended = none := by
      simp only [isOpen, Bool.and_eq_true, Option.isNone_iff_eq_none] at ho
      exact ho.1.2
    refine ⟨hg, hended, ?_⟩
    by_contra hp
    have hheld : c.held = true := by
      simp only [isOpen, Bool.and_eq_true] at ho
      exact ho.2
    have hdial := (held_of_givenUp h hg hended hp).1 hheld
    obtain ⟨hevents, -⟩ := h.released hg
    -- The dial task finds the receiver gone, and the last clone goes with it.
    have hstep : step c .opened = some { c with dial := .over } := by
      simp [step, hdial, hevents, send]
    have hopen := hall [.opened] _ (by simp [Act.isTask]) (Machine.run_cons.2 ⟨_, hstep, rfl⟩)
    have hkept := kept_step h hstep
    have hp' : ¬ { c with dial := Dial.over }.pumped := by
      unfold pumped at hp ⊢
      rw [not_or] at hp ⊢
      exact ⟨by simp, hp.2⟩
    have hheld' : { c with dial := Dial.over }.held = true := by
      simp only [isOpen, Bool.and_eq_true] at hopen
      exact hopen.2
    have := (held_of_givenUp hkept hg hended hp').1 hheld'
    simp at this
  · rintro ⟨hg, hended, hp⟩
    exact ⟨hg, isOpen_of_pumped h hended hp, fun as t ha hs => open_of_pumped h hended hp ha hs⟩

/-! ## Every run -/

/-- What the other steps make of a connection given up: nothing starts its
pump. -/
theorem other_step {c c' : Conn} {a : Act} (h : Kept c) (hs : step c a = some c')
    (ha : ∀ reason, a ≠ .close reason) (ha' : a ≠ .drop) :
    (c'.givenUp ↔ c.givenUp) ∧ (c'.ended = none → c.ended = none) ∧ (c.givenUp → c'.pumped → c.pumped) := by
  cases step_cases hs with
  | answered => exact ⟨Iff.rfl, id, fun _ hp => .inr (hp.resolve_left (by simp))⟩
  | refused =>
    refine ⟨by simp [givenUp], by simp, fun _ hp => .inr ?_⟩
    simpa using hp.resolve_left (by simp)
  | opened =>
    refine ⟨by simp [givenUp], by simp, fun hg hp => .inr ?_⟩
    simpa using hp.resolve_left (by simp [(h.released hg).1])
  | pump hd => exact ⟨Iff.rfl, id, fun _ _ => .inl hd⟩
  | ends => exact ⟨Iff.rfl, by simp, fun _ hp => hp⟩
  | queueStream | queueDatagram => simp [givenUp, pumped]
  | watch =>
    refine ⟨by simp [givenUp], by simp, fun _ hp => .inl ?_⟩
    simpa using hp.resolve_right (by simp)
  | close => exact absurd rfl (ha _)
  | drop => exact absurd rfl ha'
  | _ => exact ⟨Iff.rfl, id, fun _ => id⟩

/-- **One step** leaves the connection stuck exactly when script gives it up
without releasing it. -/
theorem stuck_step {c c' : Conn} {a : Act} (h : Kept c) (hfree : ¬ c.Stuck) (hs : step c a = some c') :
    ¬ c'.Stuck ↔ c.Released a := by
  rw [stuck_iff (kept_step h hs)]
  by_cases hclose : ∃ reason, a = .close reason
  · obtain ⟨reason, rfl⟩ := hclose
    simp only [step] at hs
    split at hs
    · simp at hs
    · rw [← Option.some.inj hs]
      cases hc : c.object.connection with
      | true => simp [Released, hc]
      | false =>
        cases he : c.ended with
        | none => simp [Released, givenUp, pumped, hc, he]
        | some reason => simp [Released, he]
  by_cases hdrop : a = .drop
  · subst hdrop
    simp only [step] at hs
    split at hs
    · simp at hs
    · rw [← Option.some.inj hs]
      cases he : c.ended with
      | none => simp [Released, givenUp, pumped, he]
      | some reason => simp [Released, he]
  · obtain ⟨hgiven, hended, hpumped⟩ := other_step h hs (fun reason he => hclose ⟨reason, he⟩) hdrop
    refine iff_of_true ?_ ?_
    · rintro ⟨hg, he, hp⟩
      have hg := hgiven.1 hg
      exact hfree ((stuck_iff h).2 ⟨hg, hended he, hpumped hg hp⟩)
    · cases a with
      | close reason => exact absurd ⟨reason, rfl⟩ hclose
      | drop => exact absurd rfl hdrop
      | _ => trivial

theorem not_stuck_of_fresh {c : Conn} (hg : ¬ c.givenUp) : ¬ c.Stuck := fun hs => hg hs.1

/-- **Giving up closes exactly when it releases.** In every run of a
connection that was dialled or accepted, whatever its tasks, the network and
script do: no state is reached in which script has given the connection up
and it is open and stays so whatever its tasks still do, if and only if
script gives it up only when it has ended, when the pump is not started and
will not be, or by a `close` that finds the handle. -/
theorem given_up_iff {c₀ c : Conn}
    (h₀ : (∃ running tree, c₀ = dialled running tree) ∨ ∃ running tree, c₀ = accepted running tree) {as : List Act}
    (h : Machine.run step c₀ as = some c) :
    (∀ bs u, bs <+: as → Machine.run step c₀ bs = some u → ¬ u.Stuck) ↔ Machine.Along step Released c₀ as := by
  have hstart : Kept c₀ ∧ ¬ c₀.Stuck := by
    rcases h₀ with ⟨running, tree, rfl⟩ | ⟨running, tree, rfl⟩
    · refine ⟨kept_dialled running tree, not_stuck_of_fresh ?_⟩
      cases running with
      | true => simp [givenUp, dialled]
      | false => simp [givenUp, dialled]
    · exact ⟨kept_accepted running tree, not_stuck_of_fresh (by simp [givenUp, accepted])⟩
  have hiff := Machine.invariant_iff_along (I := fun c => Kept c ∧ ¬ c.Stuck)
    (fun c a c' hI hs => (and_iff_right (kept_step hI.1 hs)).trans (stuck_step hI.1 hI.2 hs)) h hstart
  rw [← hiff]
  constructor
  · intro hall bs u hbs hu
    exact ⟨Machine.run_invariant (fun _ _ _ => kept_step) hu hstart.1, hall bs u hbs hu⟩
  · intro hall bs u hbs hu
    exact (hall bs u hbs hu).2

/-- A connection is dialled and opens, and script closes it. -/
theorem given_up_iff_closed : ∃ c, Machine.run step (dialled true true)
    [.answered, .opened, .pump, .drain, .close "bye"] = some c ∧ c.ended = some "bye" ∧ ¬ c.Stuck := by
  have hrun : ((Machine.run step (dialled true true) [.answered, .opened, .pump, .drain, .close "bye"]).map
      (·.ended)) = some (some "bye") := by
    decide +kernel
  obtain ⟨c, hc, he⟩ := Option.map_eq_some_iff.1 hrun
  have hmet : Machine.Along step Released (dialled true true) [.answered, .opened, .pump, .drain, .close "bye"] := by
    decide +kernel
  exact ⟨c, hc, he, (given_up_iff (.inl ⟨true, true, rfl⟩) hc).2 hmet _ c (List.prefix_refl _) hc⟩

/-- **It stays open**: script drops its last reference to an open
connection, and likewise when it closes the object before `Opened` is
drained. -/
theorem stays_open :
    (∃ c, Machine.run step (accepted true true) [.drop] = some c ∧ c.Stuck) ∧
      ∃ c, Machine.run step (dialled true true) [.answered, .opened, .pump, .close "bye"] = some c ∧ c.Stuck := by
  have hdropped : ((Machine.run step (accepted true true) [.drop]).map fun c => (c.dropped, c.ended, c.watcher)) =
      some (true, none, true) := by
    decide +kernel
  have hclosed : ((Machine.run step (dialled true true) [.answered, .opened, .pump, .close "bye"]).map fun c =>
      (c.closed, c.ended, c.watcher)) = some (true, none, true) := by
    decide +kernel
  obtain ⟨c, hc, he⟩ := Option.map_eq_some_iff.1 hdropped
  obtain ⟨d, hd, he'⟩ := Option.map_eq_some_iff.1 hclosed
  simp only [Prod.mk.injEq] at he he'
  have hkc := Machine.run_invariant (fun _ _ _ => kept_step) hc (kept_accepted true true)
  have hkd := Machine.run_invariant (fun _ _ _ => kept_step) hd (kept_dialled true true)
  exact ⟨⟨c, hc, (stuck_iff hkc).2 ⟨.inr he.1, he.2.1, .inr he.2.2⟩⟩,
    ⟨d, hd, (stuck_iff hkd).2 ⟨.inl he'.1, he'.2.1, .inr he'.2.2⟩⟩⟩

end Conn
end Gdiroh.Raw
